import Jumbo.Lib.Relay

/-
  What every step of a lane keeps.

  A step that meets the condition keeps the balance of what
  came, what is under way and what has been handled.

  Main declarations:
    * `Lane.Sound.receive`
    * `Lane.Sound.act`
    * `Lane.Sound.exec`
    * `Lane.sound`
-/

------------------------------------------------------------
-- One Step
------------------------------------------------------------

namespace Protocol

namespace Relay

variable {α σ : Type*}
variable {hd : Handler α σ} {L L' : Lane α σ}

namespace Lane

/- No round before the current one is served any more. -/
theorem round_le_low (L : Lane α σ) : L.round ≤ L.low := by
  unfold low
  split
  · exact Nat.le_succ _
  · exact Nat.le_refl _

theorem low_eq (hStage : L.stage ≠ .closed) :
    L.low = L.round := by
  unfold low
  split
  · contradiction
  · rfl

theorem low_closed (hStage : L.stage = .closed) :
    L.low = L.round + 1 := by
  unfold low
  rw [hStage]

/- What waits while the worker of the round runs. -/
theorem pending_working (hStage : L.stage = .working) :
    L.pending =
      L.incoming ++
        ((L.workers L.round).pc.held ++
          (L.buffers (L.round + 1) ++
            L.buffers (L.round + 2))) := by
  unfold pending
  rw [hStage]

variable [DecidableEq α]

/- At the start nothing has come and nothing waits. -/
theorem sound_init : (init hd).Sound hd where
  balanced := by
    intro msg i _ _
    rfl
  fresh _ _ := ⟨rfl, rfl⟩
  clean := by
    intro i hLow
    exact absurd hLow (Nat.not_lt_zero i)
  running := by
    intro hStage
    cases hStage
  measured := by
    intro left carried hStage
    cases hStage
  future := by
    intro hStage
    cases hStage
  behind _ := by
    refine ⟨fun hStage => ?_, fun _ msg hMem => ?_⟩
    · cases hStage
    · cases hMem

/- A message that arrives waits from then on. -/
theorem pending_arrive (new msg : α) :
    (L.arrive hd new).pending.count msg =
      L.pending.count msg + [new].count msg := by
  unfold pending arrive
  cases L.stage with
  | before =>
      simp only [List.count_append]
      omega
  | draining left carried =>
      simp only [List.count_append]
      omega
  | working =>
      simp only [List.count_append]
      omega
  | closed =>
      simp only [List.count_append]
      omega

/- An arrival is accounted for. -/
theorem Sound.arrive
    (hSound : L.Sound hd) (new : α) :
    (L.arrive hd new).Sound hd where
  balanced := by
    intro msg i hRound hLow
    have hOld := hSound.balanced msg i hRound hLow
    have hLe : L.round ≤ i := Nat.le_trans L.round_le_low hLow
    rw [pending_arrive]
    unfold Lane.arrive
    dsimp only
    split
    · rw [List.count_append]
      omega
    · rename_i hNot
      have hNe : new ≠ msg := by
        rintro rfl
        omega
      rw [List.count_singleton, if_neg (by simpa using hNe)]
      exact hOld
  fresh := hSound.fresh
  clean := hSound.clean
  running := hSound.running
  measured := hSound.measured
  future := hSound.future
  behind := hSound.behind

/- Measuring the buffer moves no message. -/
theorem Sound.measure
    (hSound : L.Sound hd) (hExec : L.measure hd = some L') :
    L'.Sound hd := by
  unfold Lane.measure at hExec
  split at hExec
  · rename_i hStage
    split at hExec
    · rename_i hDrains
      cases hExec
      exact
        { balanced := by
            intro msg i hRound hLow
            have hOld :=
              hSound.balanced msg i hRound
                (by unfold low; rw [hStage]; exact hLow)
            unfold pending at hOld ⊢
            rw [hStage] at hOld
            exact hOld
          fresh := by
            intro i hi
            exact
              hSound.fresh i
                (by unfold Unstarted; rw [hStage]; exact hi)
          clean := by
            intro i hi
            exact
              hSound.clean i
                (by unfold low; rw [hStage]; exact hi)
          running := by
            intro hEq
            cases hEq
          measured := by
            intro left carried hEq
            cases hEq
            exact ⟨hDrains, rfl⟩
          future := by
            intro hEq
            cases hEq
          behind := by
            intro hNot
            rw [hDrains] at hNot
            cases hNot }
    · cases hExec
  · cases hExec

/- Draining moves messages and loses none. -/
theorem Sound.drain
    (hSound : L.Sound hd) (hExec : L.drain hd = some L') :
    L'.Sound hd := by
  unfold Lane.drain at hExec
  split at hExec
  · rename_i left hStage
    rcases hSound.measured _ _ hStage with
      ⟨hDrains, hLength⟩
    split at hExec
    · cases hExec
    · rename_i new rest hBuffer
      cases hExec
      rw [hBuffer, List.length_cons] at hLength
      have hLow : L.low = L.round := by
        unfold low
        rw [hStage]
      exact
        { balanced := by
            intro msg i hRound hi
            have hOld :=
              hSound.balanced msg i hRound (hLow ▸ hi)
            unfold pending at hOld ⊢
            rw [hStage, hBuffer] at hOld
            dsimp only at hOld ⊢
            have hApart : L.round + 1 ≠ L.round :=
              Nat.succ_ne_self _
            rw [Function.update_self,
              Function.update_of_ne hApart]
            simp only [Option.toList_none, List.nil_append,
              Option.toList_some, List.count_append,
              List.count_cons, List.count_nil] at hOld ⊢
            omega
          fresh := by
            intro i hi
            exact
              hSound.fresh i
                (by unfold Unstarted; rw [hStage]; exact hi)
          clean := by
            intro i hi
            exact hSound.clean i (hLow ▸ hi)
          running := by
            intro hEq
            cases hEq
          measured := by
            intro left' carried hEq
            cases hEq
            refine ⟨hDrains, ?_⟩
            dsimp only
            rw [Function.update_self]
            exact Nat.succ.inj hLength
          future := by
            intro hEq
            cases hEq
          behind := by
            intro hNot
            rw [hDrains] at hNot
            cases hNot }
  · rename_i left new hStage
    rcases hSound.measured _ _ hStage with
      ⟨hDrains, hLength⟩
    cases hExec
    have hLow : L.low = L.round := by
      unfold low
      rw [hStage]
    exact
      { balanced := by
          intro msg i hRound hi
          have hOld :=
            hSound.balanced msg i hRound (hLow ▸ hi)
          unfold pending at hOld ⊢
          rw [hStage] at hOld
          have hi : L.round ≤ i := hi
          dsimp only at hOld ⊢
          split
          · rw [Function.update_self,
              Function.update_of_ne
                (Nat.succ_ne_self _).symm]
            simp only [Option.toList_none, List.nil_append,
              Option.toList_some, List.count_append]
              at hOld ⊢
            omega
          · -- the message is of a round that is over
            rename_i hOver
            have hNe : new ≠ msg := by
              rintro rfl
              omega
            have hCount : [new].count msg = 0 :=
              List.count_eq_zero.mpr fun hMem =>
                hNe (List.mem_singleton.mp hMem).symm
            simp only [Option.toList_none, List.nil_append,
              Option.toList_some, List.count_append]
              at hOld ⊢
            omega
        fresh := by
          intro i hi
          exact
            hSound.fresh i
              (by unfold Unstarted; rw [hStage]; exact hi)
        clean := by
          intro i hi
          exact hSound.clean i (hLow ▸ hi)
        running := by
          intro hEq
          cases hEq
        measured := by
          intro left' carried hEq
          cases hEq
          refine ⟨hDrains, ?_⟩
          dsimp only
          split
          · rw [Function.update_of_ne
              (Nat.succ_ne_self _).symm]
            exact hLength
          · exact hLength
        future := by
          intro hEq
          cases hEq
        behind := by
          intro hNot
          rw [hDrains] at hNot
          cases hNot }
  · cases hExec

/- The worker starts with nothing left behind. -/
theorem Sound.launch
    (hSound : L.Sound hd)
    (hUnstarted : ∀ i, L.round < i → L.Unstarted i)
    (hLow : L.low = L.round)
    (hPending :
      ∀ msg, L.round ≤ hd.round msg →
        L.pending.count msg =
          (L.incoming ++ L.buffers (L.round + 1)).count msg)
    (hHandled : (L.workers L.round).handled = []) :
    (L.launch hd).Sound hd where
  balanced := by
    intro msg i hRound hi
    have hi : L.round ≤ i := hi
    have hOld :=
      hSound.balanced msg i hRound (hLow ▸ hi)
    rw [hPending msg (by omega)] at hOld
    unfold pending Lane.launch
    dsimp only
    have hApart : L.round + 1 ≠ L.round + 2 := by omega
    rw [Function.update_self, Function.update_self,
      Function.update_of_ne hApart]
    simp only [List.count_append, List.count_nil,
      Pc.held] at hOld ⊢
    by_cases hEq : i = L.round
    · rw [hEq, hHandled, List.count_nil] at hOld
      rw [hEq, Function.update_self, List.count_nil]
      omega
    · rw [Function.update_of_ne hEq]
      omega
  fresh := by
    intro i hi
    have hi : L.round < i := hi
    have hNe : i ≠ L.round := by omega
    unfold Lane.launch
    dsimp only
    rw [Function.update_of_ne hNe]
    exact hSound.fresh i (hUnstarted i hi)
  clean := by
    intro i hi
    have hi : i < L.round := hi
    have hNe : i ≠ L.round := by omega
    unfold Lane.launch
    dsimp only
    rw [Function.update_of_ne hNe]
    exact hSound.clean i (hLow ▸ hi)
  running := by
    intro _
    unfold Lane.launch
    dsimp only
    rw [Function.update_self]
    nofun
  measured := by
    intro left carried hEq
    cases hEq
  future := by
    intro _ msg hMem
    unfold Lane.launch at hMem
    dsimp only at hMem
    rw [Function.update_self] at hMem
    cases hMem
  behind := by
    intro _
    refine ⟨fun hEq => ?_, fun hEq => ?_⟩
    · cases hEq
    · cases hEq

/- A new worker finds what is left for it. -/
theorem Sound.start
    (hSound : L.Sound hd) (hExec : L.start hd = some L') :
    L'.Sound hd := by
  unfold Lane.start at hExec
  split at hExec
  · rename_i hStage
    split at hExec
    · cases hExec
    · rename_i hDrains
      have hDrains : hd.drains = false :=
        Bool.eq_false_iff.mpr hDrains
      cases hExec
      have hUnstarted (i : Nat) (hi : L.round ≤ i) :
          L.Unstarted i := by
        unfold Unstarted
        rw [hStage]
        exact hi
      refine
        hSound.launch
          (fun i hi => hUnstarted i (Nat.le_of_lt hi)) ?_ ?_
          (hSound.fresh _ (hUnstarted _ (Nat.le_refl _))).2
      · unfold low
        rw [hStage]
      · -- what nobody drains is of a round that is over
        intro msg hRound
        have hBehind : msg ∉ L.buffers L.round := by
          intro hMem
          have hLt :=
            (hSound.behind hDrains).2 hStage msg hMem
          omega
        unfold pending
        rw [hStage]
        dsimp only
        rw [List.count_append, List.count_append,
          List.count_eq_zero.mpr hBehind, Nat.zero_add,
          List.count_append]
  · rename_i hStage
    cases hExec
    have hUnstarted (i : Nat) (hi : L.round ≤ i) :
        L.Unstarted i := by
      unfold Unstarted
      rw [hStage]
      exact hi
    refine
      hSound.launch
        (fun i hi => hUnstarted i (Nat.le_of_lt hi)) ?_ ?_
        (hSound.fresh _ (hUnstarted _ (Nat.le_refl _))).2
    · unfold low
      rw [hStage]
    · intro msg _
      have hNil : L.buffers L.round = [] :=
        List.length_eq_zero_iff.mp
          (hSound.measured _ _ hStage).2
      unfold pending
      rw [hStage, hNil]
      rfl
  · cases hExec

/- An orderly end leaves no message behind. -/
theorem Sound.close
    (hSound : L.Sound hd)
    (hOk : L.orderly hd .close = true)
    (hExec : L.close = some L') :
    L'.Sound hd := by
  unfold orderly at hOk
  rcases Bool.and_eq_true_iff.mp hOk with ⟨hHeld, hBehind⟩
  have hHeld : ∀ msg ∈ (L.workers L.round).pc.held,
      hd.round msg ≤ L.round := by
    intro msg hMem
    exact of_decide_eq_true (List.all_eq_true.mp hHeld _ hMem)
  unfold Lane.close at hExec
  split at hExec
  · rename_i hStage
    cases hExec
    have hLow : L.low = L.round := by
      unfold low
      rw [hStage]
    exact
      { balanced := by
          intro msg i hRound hi
          have hi : L.round + 1 ≤ i := hi
          have hOld :=
            hSound.balanced msg i hRound (by omega)
          have hNone : msg ∉ (L.workers L.round).pc.held := by
            intro hMem
            have hLe := hHeld msg hMem
            omega
          have hCount := List.count_eq_zero.mpr hNone
          unfold pending at hOld ⊢
          rw [hStage] at hOld
          simp only [List.count_append] at hOld ⊢
          omega
        fresh := by
          intro i hi
          exact
            hSound.fresh i
              (by unfold Unstarted; rw [hStage]; exact hi)
        clean := by
          intro i hi msg hMem
          have hi : i < L.round + 1 := hi
          rcases Nat.lt_succ_iff_lt_or_eq.mp hi with
            hBefore | rfl
          · exact hSound.clean i (by omega) msg hMem
          · exact hHeld msg hMem
        running := by
          intro hEq
          cases hEq
        measured := by
          intro left carried hEq
          cases hEq
        future := by
          intro hEq
          cases hEq
        behind := by
          intro hNot
          refine ⟨fun _ msg hMem => ?_, fun hEq => ?_⟩
          · rw [hNot, Bool.false_or] at hBehind
            exact
              of_decide_eq_true
                (List.all_eq_true.mp hBehind _ hMem)
          · cases hEq }
  · cases hExec

/- The next round keeps what waits for it. -/
theorem Sound.next
    (hSound : L.Sound hd) (hExec : L.next = some L') :
    L'.Sound hd := by
  unfold Lane.next at hExec
  split at hExec
  · rename_i hStage
    cases hExec
    have hLow := low_closed hStage
    exact
      { balanced := by
          intro msg i hRound hi
          have hi : L.round + 1 ≤ i := hi
          have hOld :=
            hSound.balanced msg i hRound (hLow ▸ hi)
          unfold pending at hOld ⊢
          rw [hStage] at hOld
          exact hOld
        fresh := by
          intro i hi
          exact
            hSound.fresh i
              (by unfold Unstarted; rw [hStage]; exact hi)
        clean := by
          intro i hi
          exact hSound.clean i (hLow ▸ hi)
        running := by
          intro hEq
          cases hEq
        measured := by
          intro left carried hEq
          cases hEq
        future := by
          intro hEq
          cases hEq
        behind := by
          intro hNot
          refine ⟨fun hEq => ?_, fun _ msg hMem => ?_⟩
          · cases hEq
          · have hLe :=
              (hSound.behind hNot).1 hStage msg hMem
            dsimp only
            omega }
  · cases hExec

end Lane

end Relay

end Protocol

------------------------------------------------------------
-- One Step of a Worker
------------------------------------------------------------

namespace Protocol

namespace Relay

variable {α σ : Type*} [DecidableEq α]
variable {hd : Handler α σ} {L L' : Lane α σ}

namespace Lane

/- A worker that is not idle has been started. -/
theorem Sound.started
    (hSound : L.Sound hd) {i : Nat}
    (hPc : (L.workers i).pc ≠ .idle) : ¬ L.Unstarted i :=
  fun hUnstarted => hPc (hSound.fresh i hUnstarted).1

/- Who has not been told to stop is of this round. -/
theorem Sound.active
    (hSound : L.Sound hd) {i : Nat}
    (hPc : (L.workers i).pc ≠ .idle)
    (hOpen : L.ended i = false) :
    L.stage = .working ∧ i = L.round := by
  have hStarted := hSound.started hPc
  have hLow : ¬ i < L.low := of_decide_eq_false hOpen
  unfold Unstarted at hStarted
  unfold low at hLow
  cases hStage : L.stage with
  | before =>
      rw [hStage] at hStarted hLow
      dsimp only at hStarted hLow
      omega
  | draining left carried =>
      rw [hStage] at hStarted hLow
      dsimp only at hStarted hLow
      omega
  | working =>
      rw [hStage] at hStarted hLow
      dsimp only at hStarted hLow
      exact ⟨rfl, by omega⟩
  | closed =>
      rw [hStage] at hStarted hLow
      dsimp only at hStarted hLow
      omega

/- A worker moves on that has no message before and after. -/
theorem Sound.setPc
    (hSound : L.Sound hd) {i : Nat} {pc : Pc α}
    (hPc : (L.workers i).pc ≠ .idle)
    (hOld : (L.workers i).pc.held = [])
    (hStays : pc ≠ .idle) (hNew : pc.held = []) :
    (L.setPc i pc).Sound hd := by
  have hHeld (j : Nat) :
      ((L.setPc i pc).workers j).pc.held =
        (L.workers j).pc.held := by
    unfold Lane.setPc
    dsimp only
    by_cases hEq : j = i
    · rw [hEq, Function.update_self, hNew, hOld]
    · rw [Function.update_of_ne hEq]
  have hHandled (j : Nat) :
      ((L.setPc i pc).workers j).handled =
        (L.workers j).handled := by
    unfold Lane.setPc
    dsimp only
    by_cases hEq : j = i
    · rw [hEq, Function.update_self]
    · rw [Function.update_of_ne hEq]
  have hPending : (L.setPc i pc).pending = L.pending := by
    unfold pending
    rw [hHeld]
    rfl
  exact
    { balanced := by
        intro msg j hRound hj
        rw [hPending, hHandled]
        exact hSound.balanced msg j hRound hj
      fresh := by
        intro j hj
        have hNe : j ≠ i := by
          rintro rfl
          exact hSound.started hPc hj
        unfold Lane.setPc
        dsimp only
        rw [Function.update_of_ne hNe]
        exact hSound.fresh j hj
      clean := by
        intro j hj
        rw [hHeld]
        exact hSound.clean j hj
      running := by
        intro hStage
        unfold Lane.setPc
        dsimp only
        by_cases hEq : L.round = i
        · rw [hEq, Function.update_self]
          exact hStays
        · rw [Function.update_of_ne hEq]
          exact hSound.running hStage
      measured := hSound.measured
      future := hSound.future
      behind := hSound.behind }

section Taken

variable {i : Nat} {source : Source} {new : α}
variable {rest : List α}

omit [DecidableEq α] in
/- Taking a message changes channels only. -/
theorem taken_eq (i : Nat) (rest : List α) (source : Source) :
    (L.taken i rest source).round = L.round ∧
      (L.taken i rest source).stage = L.stage ∧
        (L.taken i rest source).workers = L.workers ∧
          (L.taken i rest source).arrived = L.arrived := by
  cases source with
  | incoming => exact ⟨rfl, rfl, rfl, rfl⟩
  | buffer => exact ⟨rfl, rfl, rfl, rfl⟩

omit [DecidableEq α] in
/- Taking a message changes one buffer at most. -/
theorem taken_buffers_of_ne
    {j : Nat} (hNe : source = .buffer → j ≠ i + 1) :
    (L.taken i rest source).buffers j = L.buffers j := by
  cases source with
  | incoming => rfl
  | buffer => exact Function.update_of_ne (hNe rfl) _ _

omit [DecidableEq α] in
/- No message appears in a buffer by taking one. -/
theorem mem_of_mem_taken
    (hOffers : L.offers i source = new :: rest)
    {j : Nat} {msg : α}
    (hMem : msg ∈ (L.taken i rest source).buffers j) :
    msg ∈ L.buffers j := by
  cases source with
  | incoming => exact hMem
  | buffer =>
      have hOffers : L.buffers (i + 1) = new :: rest :=
        hOffers
      by_cases hEq : j = i + 1
      · subst hEq
        unfold taken at hMem
        dsimp only at hMem
        rw [Function.update_self] at hMem
        rw [hOffers]
        exact List.mem_cons_of_mem _ hMem
      · rwa [taken_buffers_of_ne fun _ => hEq] at hMem

/- Other messages are where they were. -/
theorem count_taken_of_ne
    (hOffers : L.offers i source = new :: rest)
    {msg : α} (hNe : new ≠ msg) :
    (L.taken i rest source).incoming.count msg =
        L.incoming.count msg ∧
      ∀ j, ((L.taken i rest source).buffers j).count msg =
        (L.buffers j).count msg := by
  cases source with
  | incoming =>
      have hOffers : L.incoming = new :: rest := hOffers
      refine ⟨?_, fun _ => rfl⟩
      rw [hOffers, List.count_cons_of_ne hNe]
      rfl
  | buffer =>
      have hOffers : L.buffers (i + 1) = new :: rest :=
        hOffers
      refine ⟨rfl, fun j => ?_⟩
      by_cases hEq : j = i + 1
      · subst hEq
        unfold taken
        dsimp only
        rw [Function.update_self, hOffers,
          List.count_cons_of_ne hNe]
      · rw [taken_buffers_of_ne fun _ => hEq]

omit [DecidableEq α] in
/- Of the workers only the one that takes it is changed. -/
theorem received_workers :
    (∀ j, j ≠ i →
        ((L.taken i rest source).setPc i
          (.holding new)).workers j = L.workers j) ∧
      (∀ j, (((L.taken i rest source).setPc i
          (.holding new)).workers j).handled =
        (L.workers j).handled) ∧
        (((L.taken i rest source).setPc i
          (.holding new)).workers i).pc = .holding new := by
  rcases L.taken_eq i rest source with ⟨_, _, hWorkers, _⟩
  unfold setPc
  dsimp only
  rw [hWorkers]
  refine ⟨fun j hNe => ?_, fun j => ?_, ?_⟩
  · rw [Function.update_of_ne hNe]
  · by_cases hEq : j = i
    · rw [hEq, Function.update_self]
    · rw [Function.update_of_ne hEq]
  · rw [Function.update_self]

omit [DecidableEq α] in
/- A worker that takes a message changes no round. -/
theorem received_low :
    ((L.taken i rest source).setPc i (.holding new)).low =
      L.low := by
  cases source with
  | incoming => rfl
  | buffer => rfl

omit [DecidableEq α] in
/- A worker that takes a message starts no other. -/
theorem received_unstarted (j : Nat) :
    ((L.taken i rest source).setPc i
        (.holding new)).Unstarted j ↔ L.Unstarted j := by
  cases source with
  | incoming => exact Iff.rfl
  | buffer => exact Iff.rfl

/- Taking a message, as far as it is the same for all. -/
theorem Sound.receive
    (hSound : L.Sound hd)
    (hPc : (L.workers i).pc = .inner)
    (hOffers : L.offers i source = new :: rest)
    (hOver : L.ended i = true → hd.round new ≤ i)
    (hDrained :
      source = .buffer → L.drained (i + 1) = false)
    (hPending :
      ∀ msg, L.low ≤ hd.round msg →
        ((L.taken i rest source).setPc i
            (.holding new)).pending.count msg =
          L.pending.count msg) :
    ((L.taken i rest source).setPc i (.holding new)).Sound
      hd := by
  rcases L.taken_eq i rest source with
    ⟨hRound, hStage, _, hArrived⟩
  rcases @received_workers _ _ L i source new rest with
    ⟨hKept, hHandled, hHolding⟩
  exact
    { balanced := by
        intro msg j hMsg hj
        rw [received_low] at hj
        rw [hPending msg (by omega), hHandled]
        have hOld := hSound.balanced msg j hMsg hj
        rw [← hOld]
        exact congrArg (List.count msg) hArrived
      fresh := by
        intro j hj
        rw [received_unstarted] at hj
        have hNe : j ≠ i := by
          rintro rfl
          refine hSound.started ?_ hj
          rw [hPc]
          nofun
        rw [hKept j hNe]
        exact hSound.fresh j hj
      clean := by
        intro j hj msg hMem
        rw [received_low] at hj
        by_cases hEq : j = i
        · subst hEq
          rw [hHolding] at hMem
          cases List.mem_singleton.mp hMem
          exact hOver (decide_eq_true hj)
        · rw [hKept j hEq] at hMem
          exact hSound.clean j hj msg hMem
      running := by
        intro hEq
        have hEq : L.stage = .working := hStage ▸ hEq
        have hAt :
            ((L.taken i rest source).setPc i
              (.holding new)).round = L.round := hRound
        rw [hAt]
        by_cases hi : L.round = i
        · subst hi
          rw [hHolding]
          nofun
        · rw [hKept _ hi]
          exact hSound.running hEq
      measured := by
        intro left carried hEq
        have hEq : L.stage = .draining left carried :=
          hStage ▸ hEq
        have hApart : source = .buffer → L.round ≠ i + 1 := by
          intro hSource hAt
          have hNot := hDrained hSource
          unfold drained at hNot
          rw [hEq] at hNot
          exact of_decide_eq_false hNot hAt.symm
        have hSame :=
          @taken_buffers_of_ne _ _ L i source rest _ hApart
        refine ⟨(hSound.measured _ _ hEq).1, ?_⟩
        rw [← (hSound.measured _ _ hEq).2, ← hSame]
        exact
          congrArg
            (fun r =>
              ((L.taken i rest source).buffers r).length)
            hRound
      future := by
        intro hEq msg hMem
        have hEq : L.stage = .working := hStage ▸ hEq
        have hMem :
            msg ∈ (L.taken i rest source).buffers
              ((L.taken i rest source).round + 2) := hMem
        have hGoal := hSound.future hEq msg
        rw [hRound] at hMem
        have hLt := hGoal (mem_of_mem_taken hOffers hMem)
        rw [← hRound] at hLt
        exact hLt
      behind := by
        intro hNot
        rcases hSound.behind hNot with ⟨hClosed, hBefore⟩
        refine ⟨fun hEq msg hMem => ?_, fun hEq msg hMem => ?_⟩
        · have hEq : L.stage = .closed := hStage ▸ hEq
          have hMem :
              msg ∈ (L.taken i rest source).buffers
                ((L.taken i rest source).round + 1) := hMem
          rw [hRound] at hMem
          have hLe :=
            hClosed hEq msg (mem_of_mem_taken hOffers hMem)
          rw [← hRound] at hLe
          exact hLe
        · have hEq : L.stage = .before := hStage ▸ hEq
          have hMem :
              msg ∈ (L.taken i rest source).buffers
                (L.taken i rest source).round := hMem
          rw [hRound] at hMem
          have hLt :=
            hBefore hEq msg (mem_of_mem_taken hOffers hMem)
          rw [← hRound] at hLt
          exact hLt }

/- A message of a round that is over does not count. -/
theorem Sound.receive_ended
    (hSound : L.Sound hd)
    (hPc : (L.workers i).pc = .inner)
    (hOffers : L.offers i source = new :: rest)
    (hEnded : L.ended i = true)
    (hOver : hd.round new ≤ i)
    (hDrained :
      source = .buffer → L.drained (i + 1) = false) :
    ((L.taken i rest source).setPc i (.holding new)).Sound
      hd := by
  refine
    hSound.receive hPc hOffers (fun _ => hOver) hDrained ?_
  intro msg hMsg
  have hLt : i < L.low := of_decide_eq_true hEnded
  have hNe : new ≠ msg := by
    rintro rfl
    omega
  rcases L.taken_eq i rest source with ⟨hRound, hStage, _, _⟩
  rcases @received_workers _ _ L i source new rest with
    ⟨hKept, _, _⟩
  rcases count_taken_of_ne hOffers hNe with
    ⟨hIncoming, hBuffers⟩
  generalize hEq :
    (L.taken i rest source).setPc i (.holding new) = T
    at hKept ⊢
  have hIncoming :
      T.incoming.count msg = L.incoming.count msg :=
    hEq ▸ hIncoming
  have hBuffers (j : Nat) :
      (T.buffers j).count msg = (L.buffers j).count msg :=
    hEq ▸ hBuffers j
  have hRound : T.round = L.round := hEq ▸ hRound
  have hStage : T.stage = L.stage := hEq ▸ hStage
  unfold pending
  rw [hStage, hRound]
  cases hAt : L.stage with
  | before =>
      simp only [List.count_append, hIncoming, hBuffers]
  | draining left carried =>
      simp only [List.count_append, hIncoming, hBuffers]
  | working =>
      have hOther : L.round ≠ i := by
        rw [low_eq (by rw [hAt]; nofun)] at hLt
        omega
      simp only [List.count_append, hIncoming, hBuffers,
        hKept _ hOther]
  | closed =>
      simp only [List.count_append, hIncoming, hBuffers]

/- The worker of the round takes a message over. -/
theorem Sound.receive_active
    (hSound : L.Sound hd)
    (hPc : (L.workers i).pc = .inner)
    (hOffers : L.offers i source = new :: rest)
    (hOpen : L.ended i = false) :
    ((L.taken i rest source).setPc i (.holding new)).Sound
      hd := by
  have hIdle : (L.workers i).pc ≠ .idle := by
    rw [hPc]
    nofun
  rcases hSound.active hIdle hOpen with ⟨hStage, rfl⟩
  refine hSound.receive hPc hOffers ?_ ?_ ?_
  · intro hEnded
    rw [hOpen] at hEnded
    cases hEnded
  · intro _
    unfold drained
    rw [hStage]
  · intro msg _
    have hHolding :=
      (@received_workers _ _ L L.round source new rest).2.2
    have hNothing : (L.workers L.round).pc.held = [] := by
      rw [hPc]
      rfl
    generalize hEq :
      (L.taken L.round rest source).setPc L.round
        (.holding new) = T at hHolding ⊢
    rcases L.taken_eq L.round rest source with
      ⟨hRound, hStage', _, _⟩
    have hRound : T.round = L.round := hEq ▸ hRound
    have hWorking : T.stage = .working :=
      (hEq ▸ hStage' : T.stage = L.stage).trans hStage
    rw [pending_working hWorking, pending_working hStage,
      hRound, hHolding, hNothing]
    cases source with
    | incoming =>
        have hOffers : L.incoming = new :: rest := hOffers
        have hIncoming : T.incoming = rest := hEq ▸ rfl
        have hBuffers : T.buffers = L.buffers := hEq ▸ rfl
        rw [hOffers, hIncoming, hBuffers]
        simp only [Pc.held, List.count_append,
          List.count_cons, List.count_nil]
        omega
    | buffer =>
        have hOffers : L.buffers (L.round + 1) = new :: rest :=
          hOffers
        have hIncoming : T.incoming = L.incoming :=
          hEq ▸ rfl
        have hBuffers :
            T.buffers =
              Function.update L.buffers (L.round + 1) rest :=
          hEq ▸ rfl
        have hApart : L.round + 2 ≠ L.round + 1 := by omega
        rw [hOffers, hIncoming, hBuffers,
          Function.update_self, Function.update_of_ne hApart]
        simp only [Pc.held, List.count_append,
          List.count_cons, List.count_nil]
        omega

end Taken

omit [DecidableEq α] in
/- After a message a worker has none. -/
theorem held_after (returned : Bool) :
    (if returned = true then Pc.returned
      else (Pc.outer : Pc α)).held = [] := by
  cases returned with
  | false => rfl
  | true => rfl

/- A message of a round that is over goes nowhere. -/
theorem Sound.work_ended
    (hLawful : Lawful hd) (hSound : L.Sound hd)
    {i : Nat} {msg : α}
    (hPc : (L.workers i).pc = .holding msg)
    (hEnded : L.ended i = true)
    (hExec : L.work hd i msg = some L') : L'.Sound hd := by
  have hLt : i < L.low := of_decide_eq_true hEnded
  have hOver : hd.round msg ≤ i := by
    refine hSound.clean i hLt msg ?_
    rw [hPc]
    exact List.mem_singleton_self msg
  have hStarted : ¬ L.Unstarted i := by
    refine hSound.started ?_
    rw [hPc]
    nofun
  rcases Option.map_eq_some_iff.mp hExec with
    ⟨reading, hRead, hEq⟩
  have hNil := hLawful.later_of_le hRead hOver
  rw [hNil, List.append_nil, Function.update_eq_self] at hEq
  have hKept (j : Nat) (hNe : j ≠ i) :
      L'.workers j = L.workers j := by
    rw [← hEq]
    exact Function.update_of_ne hNe _ _
  have hHeld : (L'.workers i).pc.held = [] := by
    rw [← hEq]
    dsimp only
    rw [Function.update_self]
    exact held_after _
  have hLow : L'.low = L.low := by
    rw [← hEq]
    rfl
  have hUnstarted (j : Nat) : L'.Unstarted j ↔ L.Unstarted j := by
    rw [← hEq]
    exact Iff.rfl
  have hPending : L'.pending = L.pending := by
    have hWorkers :
        L.stage = .working →
          L'.workers L.round = L.workers L.round := by
      intro hStage
      refine hKept _ ?_
      rw [low_eq (by rw [hStage]; nofun)] at hLt
      omega
    rw [← hEq] at hWorkers ⊢
    dsimp only at hWorkers
    unfold pending
    dsimp only
    split
    · rfl
    · rfl
    · rename_i hStage
      rw [hWorkers hStage]
    · rfl
  exact
    { balanced := by
        intro other j hRound hj
        rw [hLow] at hj
        rw [hPending, hKept j (by omega)]
        have hOld := hSound.balanced other j hRound hj
        rw [← hOld, ← hEq]
      fresh := by
        intro j hj
        rw [hUnstarted] at hj
        rw [hKept j fun hAt => hStarted (hAt ▸ hj)]
        exact hSound.fresh j hj
      clean := by
        intro j hj other hMem
        rw [hLow] at hj
        by_cases hAt : j = i
        · rw [hAt, hHeld] at hMem
          cases hMem
        · rw [hKept j hAt] at hMem
          exact hSound.clean j hj other hMem
      running := by
        intro hStage
        have hRound : L'.round = L.round := by
          rw [← hEq]
        have hStage : L.stage = .working := by
          rw [← hStage, ← hEq]
        rw [low_eq (by rw [hStage]; nofun)] at hLt
        rw [hRound, hKept _ (by omega)]
        exact hSound.running hStage
      measured := by
        rw [← hEq]
        exact hSound.measured
      future := by
        rw [← hEq]
        exact hSound.future
      behind := by
        rw [← hEq]
        exact hSound.behind }

/- The worker of the round handles it, or puts it away. -/
theorem Sound.work_active
    (hLawful : Lawful hd) (hSound : L.Sound hd)
    {i : Nat} {msg : α}
    (hPc : (L.workers i).pc = .holding msg)
    (hOpen : L.ended i = false)
    (hExec : L.work hd i msg = some L') : L'.Sound hd := by
  have hIdle : (L.workers i).pc ≠ .idle := by
    rw [hPc]
    nofun
  rcases hSound.active hIdle hOpen with ⟨hStage, rfl⟩
  have hLow : L.low = L.round :=
    low_eq (by rw [hStage]; nofun)
  rcases Option.map_eq_some_iff.mp hExec with
    ⟨reading, hRead, hEq⟩
  rw [hOpen] at hRead
  have hStage' : L'.stage = .working := by
    rw [← hEq]
    exact hStage
  have hRound' : L'.round = L.round := by
    rw [← hEq]
  have hLow' : L'.low = L.low := by
    rw [← hEq]
    rfl
  have hKept (j : Nat) (hNe : j ≠ L.round) :
      L'.workers j = L.workers j := by
    rw [← hEq]
    exact Function.update_of_ne hNe _ _
  have hHeld : (L'.workers L.round).pc.held = [] := by
    rw [← hEq]
    dsimp only
    rw [Function.update_self]
    exact held_after _
  have hHandled :
      (L'.workers L.round).handled =
        if hd.round msg = L.round then
          (L.workers L.round).handled ++ [msg]
        else (L.workers L.round).handled := by
    rw [← hEq]
    dsimp only
    rw [Function.update_self]
  have hNext :
      L'.buffers (L.round + 2) =
        L.buffers (L.round + 2) ++ reading.later := by
    rw [← hEq]
    exact Function.update_self _ _ _
  have hOther (j : Nat) (hNe : j ≠ L.round + 2) :
      L'.buffers j = L.buffers j := by
    rw [← hEq]
    exact Function.update_of_ne hNe _ _
  have hIncoming : L'.incoming = L.incoming := by
    rw [← hEq]
  have hArrived : L'.arrived = L.arrived := by
    rw [← hEq]
  exact
    { balanced := by
        intro other j hMsg hj
        rw [hLow'] at hj
        have hOld := hSound.balanced other j hMsg hj
        rw [pending_working hStage, hPc] at hOld
        rw [pending_working hStage', hRound', hHeld, hNext,
          hOther _ (by omega), hIncoming, hArrived]
        simp only [Pc.held, List.count_append,
          List.count_nil] at hOld ⊢
        by_cases hAt : j = L.round
        · subst hAt
          rw [hHandled]
          split
          · rename_i hOwn
            rw [hLawful.later_of_le hRead
              (Int.le_of_eq hOwn)]
            simp only [List.count_append, List.count_nil]
            omega
          · rename_i hNot
            have hNe : msg ≠ other := by
              rintro rfl
              exact hNot hMsg
            have hNone : [msg].count other = 0 :=
              List.count_eq_zero.mpr fun hMem =>
                hNe (List.mem_singleton.mp hMem).symm
            have hLater : reading.later.count other = 0 := by
              rcases Int.lt_or_le L.round (hd.round msg) with
                hGt | hLe
              · rw [hLawful.later_of_lt hRead hGt, hNone]
              · rw [hLawful.later_of_le hRead hLe]
                rfl
            omega
        · rw [hKept j hAt]
          have hLater :
              reading.later.count other =
                [msg].count other := by
            rcases Int.lt_or_le L.round (hd.round msg) with
              hGt | hLe
            · rw [hLawful.later_of_lt hRead hGt]
            · have hNe : msg ≠ other := by
                rintro rfl
                omega
              have hNone : [msg].count other = 0 :=
                List.count_eq_zero.mpr fun hMem =>
                  hNe (List.mem_singleton.mp hMem).symm
              rw [hLawful.later_of_le hRead hLe, hNone]
              rfl
          omega
      fresh := by
        intro j hj
        unfold Unstarted at hj
        rw [hStage', hRound'] at hj
        have hj : L.round < j := hj
        rw [hKept j (by omega)]
        refine hSound.fresh j ?_
        unfold Unstarted
        rw [hStage]
        exact hj
      clean := by
        intro j hj
        rw [hLow'] at hj
        rw [hKept j (by omega)]
        exact hSound.clean j hj
      running := by
        intro _
        rw [hRound', ← hEq]
        dsimp only
        rw [Function.update_self]
        split
        · nofun
        · nofun
      measured := by
        intro left carried hAt
        rw [hStage'] at hAt
        cases hAt
      future := by
        intro _ other hMem
        rw [hRound'] at hMem ⊢
        rw [hNext] at hMem
        rcases List.mem_append.mp hMem with hOld | hNew
        · exact hSound.future hStage other hOld
        · rcases Int.lt_or_le L.round (hd.round msg) with
            hGt | hLe
          · rw [hLawful.later_of_lt hRead hGt] at hNew
            cases List.mem_singleton.mp hNew
            exact hGt
          · rw [hLawful.later_of_le hRead hLe] at hNew
            cases hNew
      behind := by
        intro _
        refine ⟨fun hAt => ?_, fun hAt => ?_⟩
        · rw [hStage'] at hAt
          cases hAt
        · rw [hStage'] at hAt
          cases hAt }

/- A step of a worker that meets the condition. -/
theorem Sound.act
    (hLawful : Lawful hd) (hSound : L.Sound hd)
    {i : Nat} {act : Act}
    (hOk : L.orderly hd (.worker i act) = true)
    (hExec : L.act hd i act = some L') : L'.Sound hd := by
  cases act with
  | check =>
      dsimp only [Lane.act] at hExec
      split at hExec
      · rename_i hPc
        cases hExec
        refine hSound.setPc ?_ ?_ ?_ ?_
        · rw [hPc]
          nofun
        · rw [hPc]
          rfl
        · split
          · nofun
          · nofun
        · split
          · rfl
          · rfl
      · cases hExec
  | stop =>
      dsimp only [Lane.act] at hExec
      split at hExec
      · rename_i hPc
        split at hExec
        · cases hExec
          refine hSound.setPc ?_ ?_ nofun rfl
          · rw [hPc]
            nofun
          · rw [hPc]
            rfl
        · cases hExec
      · cases hExec
  | receive source =>
      dsimp only [Lane.act] at hExec
      split at hExec
      · rename_i new rest hPc hOffers
        cases hExec
        dsimp only [orderly] at hOk
        cases hEnded : L.ended i with
        | false =>
            exact hSound.receive_active hPc hOffers hEnded
        | true =>
            rw [hEnded, Bool.not_true, Bool.false_or,
              hOffers] at hOk
            rcases Bool.and_eq_true_iff.mp hOk with
              ⟨hOver, hDrained⟩
            refine
              hSound.receive_ended hPc hOffers hEnded
                (of_decide_eq_true hOver) ?_
            intro hSource
            rw [hSource] at hDrained
            cases hAt : L.drained (i + 1) with
            | false => rfl
            | true =>
                rw [hAt] at hDrained
                cases hDrained
      · cases hExec
  | work =>
      dsimp only [Lane.act] at hExec
      split at hExec
      · rename_i msg hPc
        cases hEnded : L.ended i with
        | false =>
            exact
              hSound.work_active hLawful hPc hEnded hExec
        | true =>
            exact hSound.work_ended hLawful hPc hEnded hExec
      · cases hExec

/- Every orderly step accounts for every message. -/
theorem Sound.exec
    (hLawful : Lawful hd) (hSound : L.Sound hd)
    {action : LaneAction α}
    (hOk : L.orderly hd action = true)
    (hExec : L.exec hd action = some L') :
    L'.Sound hd := by
  cases action with
  | arrive msg =>
      cases hExec
      exact hSound.arrive msg
  | measure => exact hSound.measure hExec
  | drain => exact hSound.drain hExec
  | start => exact hSound.start hExec
  | close => exact hSound.close hOk hExec
  | next => exact hSound.next hExec
  | worker i act => exact hSound.act hLawful hOk hExec

end Lane

/- Every run whose steps meet the condition. -/
theorem Lane.sound
    (hLawful : Lawful hd)
    (hReach :
      (lane hd).ReachableBy
        (fun L a => L.orderly hd a = true) L) :
    L.Sound hd :=
  hReach.invariant (Lane.Sound hd) Lane.sound_init
    fun _ _ _ _ hSound hOk hExec =>
      hSound.exec hLawful hOk hExec

end Relay

end Protocol
