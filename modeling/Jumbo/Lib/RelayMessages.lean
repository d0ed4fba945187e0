import Jumbo.Lib.RelaySteps

/-
  What holds of all messages in a lane, and of what its
  workers have made of them.

  Main declarations:
    * `Lane.All`
    * `Lane.All.act`
    * `Lane.Worked`
    * `Lane.Worked.act`
    * `once_append`
-/

------------------------------------------------------------
-- All Messages
------------------------------------------------------------

namespace Protocol

namespace Relay

variable {α σ : Type*}

/- What is sent on is what has been read. -/
def SendsOn (hd : Handler α σ) : Prop :=
  ∀ stop i state msg reading,
    hd.read stop i state msg = some reading →
      ∀ other ∈ reading.later, other = msg

namespace Lane

/- Wherever a message is, it has the property. -/
structure All (P : α → Prop) (L : Lane α σ) : Prop where
  incoming : ∀ msg ∈ L.incoming, P msg
  buffers : ∀ i, ∀ msg ∈ L.buffers i, P msg
  carried :
    ∀ left msg, L.stage = .draining left (some msg) → P msg
  held : ∀ i, ∀ msg ∈ (L.workers i).pc.held, P msg
  handled : ∀ i, ∀ msg ∈ (L.workers i).handled, P msg

section All

variable {hd : Handler α σ} {L L' : Lane α σ}
variable {P Q : α → Prop}

theorem all_init : (init hd).All P where
  incoming := by
    intro msg hMem
    cases hMem
  buffers := by
    intro i msg hMem
    cases hMem
  carried := by
    intro left msg hStage
    cases hStage
  held := by
    intro i msg hMem
    cases hMem
  handled := by
    intro i msg hMem
    cases hMem

/- Weaken the property of the messages. -/
theorem All.mono
    (hAll : L.All P) (hSubset : ∀ msg, P msg → Q msg) :
    L.All Q where
  incoming msg hMem := hSubset msg (hAll.incoming msg hMem)
  buffers i msg hMem := hSubset msg (hAll.buffers i msg hMem)
  carried left msg hStage :=
    hSubset msg (hAll.carried left msg hStage)
  held i msg hMem := hSubset msg (hAll.held i msg hMem)
  handled i msg hMem := hSubset msg (hAll.handled i msg hMem)

/- A good message may arrive. -/
theorem All.arrive
    (hAll : L.All P) {msg : α} (hMsg : P msg) :
    (L.arrive hd msg).All P where
  incoming := by
    intro other hMem
    rcases List.mem_append.mp hMem with hOld | hNew
    · exact hAll.incoming other hOld
    · cases List.mem_singleton.mp hNew
      exact hMsg
  buffers := hAll.buffers
  carried := hAll.carried
  held := hAll.held
  handled := hAll.handled

theorem All.launch (hAll : L.All P) : (L.launch hd).All P where
  incoming := hAll.incoming
  buffers := by
    intro i msg hMem
    unfold Lane.launch at hMem
    dsimp only at hMem
    by_cases hEq : i = L.round + 2
    · rw [hEq, Function.update_self] at hMem
      cases hMem
    · rw [Function.update_of_ne hEq] at hMem
      exact hAll.buffers i msg hMem
  carried := by
    intro left msg hStage
    cases hStage
  held := by
    intro i msg hMem
    unfold Lane.launch at hMem
    dsimp only at hMem
    by_cases hEq : i = L.round
    · rw [hEq, Function.update_self] at hMem
      cases hMem
    · rw [Function.update_of_ne hEq] at hMem
      exact hAll.held i msg hMem
  handled := by
    intro i msg hMem
    unfold Lane.launch at hMem
    dsimp only at hMem
    by_cases hEq : i = L.round
    · rw [hEq, Function.update_self] at hMem
      cases hMem
    · rw [Function.update_of_ne hEq] at hMem
      exact hAll.handled i msg hMem

theorem All.start
    (hAll : L.All P) (hExec : L.start hd = some L') :
    L'.All P := by
  unfold Lane.start at hExec
  split at hExec
  · split at hExec
    · cases hExec
    · cases hExec
      exact hAll.launch
  · cases hExec
    exact hAll.launch
  · cases hExec

theorem All.measure
    (hAll : L.All P) (hExec : L.measure hd = some L') :
    L'.All P := by
  unfold Lane.measure at hExec
  split at hExec
  · rcases Option.ite_none_right_eq_some.mp hExec with
      ⟨_, hEq⟩
    cases hEq
    refine { hAll with carried := ?_ }
    intro left msg hStage
    cases hStage
  · cases hExec

theorem All.drain
    (hAll : L.All P) (hExec : L.drain hd = some L') :
    L'.All P := by
  unfold Lane.drain at hExec
  split at hExec
  · split at hExec
    · cases hExec
    · rename_i new rest hBuffer
      cases hExec
      have hOld := hAll.buffers L.round
      rw [hBuffer] at hOld
      refine { hAll with buffers := ?_, carried := ?_ }
      · intro i msg hMem
        dsimp only at hMem
        by_cases hEq : i = L.round
        · rw [hEq, Function.update_self] at hMem
          exact hOld msg (List.mem_cons_of_mem _ hMem)
        · rw [Function.update_of_ne hEq] at hMem
          exact hAll.buffers i msg hMem
      · intro left msg hStage
        cases hStage
        exact hOld _ List.mem_cons_self
  · rename_i left new hStage
    cases hExec
    refine { hAll with buffers := ?_, carried := ?_ }
    · intro i msg hMem
      dsimp only at hMem
      split at hMem
      · by_cases hEq : i = L.round + 1
        · rw [hEq, Function.update_self] at hMem
          rcases List.mem_append.mp hMem with hOld | hNew
          · exact hAll.buffers _ msg hOld
          · cases List.mem_singleton.mp hNew
            exact hAll.carried left new hStage
        · rw [Function.update_of_ne hEq] at hMem
          exact hAll.buffers i msg hMem
      · exact hAll.buffers i msg hMem
    · intro left msg hStage'
      cases hStage'
  · cases hExec

/- Preparing a round only moves messages. -/
theorem All.prepare
    (hAll : L.All P) (hExec : L.prepare hd = some L') :
    L'.All P := by
  unfold Lane.prepare at hExec
  split at hExec
  · split at hExec
    · exact hAll.measure hExec
    · exact hAll.start hExec
  · exact hAll.start hExec
  · exact hAll.drain hExec

theorem All.close
    (hAll : L.All P) (hExec : L.close = some L') :
    L'.All P := by
  unfold Lane.close at hExec
  split at hExec
  · cases hExec
    refine { hAll with carried := ?_ }
    intro left msg hStage
    cases hStage
  · cases hExec

theorem All.next
    (hAll : L.All P) (hExec : L.next = some L') :
    L'.All P := by
  unfold Lane.next at hExec
  split at hExec
  · cases hExec
    refine { hAll with carried := ?_ }
    intro left msg hStage
    cases hStage
  · cases hExec

/- A worker may hold a good message. -/
theorem All.setPc
    (hAll : L.All P) {i : Nat} {pc : Pc α}
    (hHeld : ∀ msg ∈ pc.held, P msg) :
    (L.setPc i pc).All P := by
  refine { hAll with held := ?_, handled := ?_ }
  · intro j msg hMem
    unfold Lane.setPc at hMem
    dsimp only at hMem
    by_cases hEq : j = i
    · rw [hEq, Function.update_self] at hMem
      exact hHeld msg hMem
    · rw [Function.update_of_ne hEq] at hMem
      exact hAll.held j msg hMem
  · intro j msg hMem
    unfold Lane.setPc at hMem
    dsimp only at hMem
    by_cases hEq : j = i
    · rw [hEq, Function.update_self] at hMem
      exact hAll.handled i msg hMem
    · rw [Function.update_of_ne hEq] at hMem
      exact hAll.handled j msg hMem

/- A message is taken from where all messages are good. -/
theorem All.taken
    (hAll : L.All P) {i : Nat} {source : Source} {new : α}
    {rest : List α}
    (hOffers : L.offers i source = new :: rest) :
    (L.taken i rest source).All P ∧ P new := by
  cases source with
  | incoming =>
      have hOffers : L.incoming = new :: rest := hOffers
      have hOld := hAll.incoming
      rw [hOffers] at hOld
      refine ⟨{ hAll with incoming := ?_ }, ?_⟩
      · intro msg hMem
        exact hOld msg (List.mem_cons_of_mem _ hMem)
      · exact hOld new List.mem_cons_self
  | buffer =>
      have hOffers' : L.buffers (i + 1) = new :: rest := hOffers
      have hOld := hAll.buffers (i + 1)
      rw [hOffers'] at hOld
      refine ⟨{ hAll with buffers := ?_ }, ?_⟩
      · intro j msg hMem
        exact
          hAll.buffers j msg (mem_of_mem_taken hOffers hMem)
      · exact hOld new List.mem_cons_self

/- Handling a good message keeps what is held good. -/
theorem All.work
    (hSendsOn : SendsOn hd) (hAll : L.All P)
    {i : Nat} {msg : α} (hMsg : P msg)
    (hExec : L.work hd i msg = some L') : L'.All P := by
  rcases Option.map_eq_some_iff.mp hExec with
    ⟨reading, hRead, hEq⟩
  cases hEq
  refine
    { hAll with
      buffers := ?_
      held := ?_
      handled := ?_ }
  · intro j other hMem
    dsimp only at hMem
    by_cases hEq : j = i + 2
    · rw [hEq, Function.update_self] at hMem
      rcases List.mem_append.mp hMem with hOld | hNew
      · exact hAll.buffers _ other hOld
      · rw [hSendsOn _ _ _ _ _ hRead other hNew]
        exact hMsg
    · rw [Function.update_of_ne hEq] at hMem
      exact hAll.buffers j other hMem
  · intro j other hMem
    dsimp only at hMem
    by_cases hEq : j = i
    · rw [hEq, Function.update_self] at hMem
      rw [held_after] at hMem
      cases hMem
    · rw [Function.update_of_ne hEq] at hMem
      exact hAll.held j other hMem
  · intro j other hMem
    dsimp only at hMem
    by_cases hEq : j = i
    · rw [hEq, Function.update_self] at hMem
      dsimp only at hMem
      split at hMem
      · rcases List.mem_append.mp hMem with hOld | hNew
        · exact hAll.handled i other hOld
        · cases List.mem_singleton.mp hNew
          exact hMsg
      · exact hAll.handled i other hMem
    · rw [Function.update_of_ne hEq] at hMem
      exact hAll.handled j other hMem

/- No statement of a worker makes up a message. -/
theorem All.act
    (hSendsOn : SendsOn hd) (hAll : L.All P)
    {i : Nat} {act : Act}
    (hExec : L.act hd i act = some L') : L'.All P := by
  cases act with
  | check =>
      dsimp only [Lane.act] at hExec
      split at hExec
      · cases hExec
        apply hAll.setPc
        intro msg hMem
        split at hMem
        · cases hMem
        · cases hMem
      · cases hExec
  | stop =>
      dsimp only [Lane.act] at hExec
      split at hExec
      · split at hExec
        · cases hExec
          apply hAll.setPc
          intro msg hMem
          cases hMem
        · cases hExec
      · cases hExec
  | receive source =>
      dsimp only [Lane.act] at hExec
      split at hExec
      · rename_i new rest _ hOffers
        cases hExec
        rcases hAll.taken hOffers with ⟨hTaken, hNew⟩
        apply hTaken.setPc
        intro msg hMem
        cases List.mem_singleton.mp hMem
        exact hNew
      · cases hExec
  | work =>
      dsimp only [Lane.act] at hExec
      split at hExec
      · rename_i msg hPc
        refine hAll.work hSendsOn ?_ hExec
        apply hAll.held i
        rw [hPc]
        exact List.mem_singleton_self msg
      · cases hExec

end All

end Lane

end Relay

end Protocol

------------------------------------------------------------
-- What Workers Make of Them
------------------------------------------------------------

namespace Protocol

namespace Relay

variable {α σ : Type*}

namespace Lane

/- What a worker has made of the messages of its round. -/
def Worked
    (Q : Nat → σ → List α → Prop) (L : Lane α σ) : Prop :=
  ∀ i, Q i (L.workers i).state (L.workers i).handled

section Worked

variable {hd : Handler α σ} {L L' : Lane α σ}
variable {Q : Nat → σ → List α → Prop}

/- Workers that have done nothing meet the invariant. -/
theorem worked_init (hNew : ∀ i, Q i hd.new []) :
    (init hd).Worked Q :=
  hNew

/- A new worker starts with no messages handled. -/
theorem Worked.launch
    (hNew : ∀ i, Q i hd.new []) (hWorked : L.Worked Q) :
    (L.launch hd).Worked Q := by
  intro i
  unfold Lane.launch
  dsimp only
  by_cases hEq : i = L.round
  · rw [hEq, Function.update_self]
    exact hNew L.round
  · rw [Function.update_of_ne hEq]
    exact hWorked i

theorem start_launch (hExec : L.start hd = some L') :
    L' = L.launch hd := by
  unfold Lane.start at hExec
  split at hExec
  · split at hExec
    · cases hExec
    · exact (Option.some.inj hExec).symm
  · exact (Option.some.inj hExec).symm
  · cases hExec

theorem drain_workers (hExec : L.drain hd = some L') :
    L'.workers = L.workers := by
  unfold Lane.drain at hExec
  split at hExec
  · split at hExec
    · cases hExec
    · cases hExec
      rfl
  · cases hExec
    rfl
  · cases hExec

theorem measure_workers (hExec : L.measure hd = some L') :
    L'.workers = L.workers := by
  unfold Lane.measure at hExec
  split at hExec
  · rcases Option.ite_none_right_eq_some.mp hExec with
      ⟨_, hEq⟩
    cases hEq
    rfl
  · cases hExec

theorem close_workers (hExec : L.close = some L') :
    L'.workers = L.workers := by
  unfold Lane.close at hExec
  split at hExec
  · cases hExec
    rfl
  · cases hExec

theorem next_workers (hExec : L.next = some L') :
    L'.workers = L.workers := by
  unfold Lane.next at hExec
  split at hExec
  · cases hExec
    rfl
  · cases hExec

/- The invariant only looks at the workers. -/
theorem Worked.same
    (hWorked : L.Worked Q) (hWorkers : L'.workers = L.workers) :
    L'.Worked Q := by
  intro i
  rw [hWorkers]
  exact hWorked i

/- Preparing a round only starts new workers. -/
theorem Worked.prepare
    (hNew : ∀ i, Q i hd.new []) (hWorked : L.Worked Q)
    (hExec : L.prepare hd = some L') : L'.Worked Q := by
  unfold Lane.prepare at hExec
  split at hExec
  · split at hExec
    · exact hWorked.same (measure_workers hExec)
    · rw [start_launch hExec]
      exact hWorked.launch hNew
  · rw [start_launch hExec]
    exact hWorked.launch hNew
  · exact hWorked.same (drain_workers hExec)

/- The statement a worker is at does not matter. -/
theorem Worked.setPc
    (hWorked : L.Worked Q) (i : Nat) (pc : Pc α) :
    (L.setPc i pc).Worked Q := by
  intro j
  unfold Lane.setPc
  dsimp only
  by_cases hEq : j = i
  · rw [hEq, Function.update_self]
    exact hWorked i
  · rw [Function.update_of_ne hEq]
    exact hWorked j

/- A worker that works has read the message it held. -/
theorem act_work
    {i : Nat} (hExec : L.act hd i .work = some L') :
    ∃ msg reading,
      (L.workers i).pc = .holding msg ∧
        hd.read (L.ended i) i (L.workers i).state msg =
            some reading ∧
          L'.workers i =
            { pc :=
                if reading.returned then .returned
                else .outer
              state := reading.state
              handled :=
                if hd.round msg = i then
                  (L.workers i).handled ++ [msg]
                else (L.workers i).handled } := by
  dsimp only [Lane.act] at hExec
  split at hExec
  · rename_i msg hPc
    rcases Option.map_eq_some_iff.mp hExec with
      ⟨reading, hRead, hEq⟩
    cases hEq
    exact
      ⟨msg, reading, hPc, hRead, Function.update_self _ _ _⟩
  · cases hExec

/- Only reading a message changes what has been made. -/
theorem Worked.act
    {i : Nat} {act : Act} (hWorked : L.Worked Q)
    (hWork :
      ∀ msg reading, act = .work →
        (L.workers i).pc = .holding msg →
          hd.read (L.ended i) i (L.workers i).state msg =
              some reading →
            Q i reading.state
              (if hd.round msg = i then
                (L.workers i).handled ++ [msg]
              else (L.workers i).handled))
    (hExec : L.act hd i act = some L') : L'.Worked Q := by
  cases act with
  | check =>
      dsimp only [Lane.act] at hExec
      split at hExec
      · cases hExec
        exact hWorked.setPc i _
      · cases hExec
  | stop =>
      dsimp only [Lane.act] at hExec
      split at hExec
      · split at hExec
        · cases hExec
          exact hWorked.setPc i _
        · cases hExec
      · cases hExec
  | receive source =>
      dsimp only [Lane.act] at hExec
      split at hExec
      · rename_i new rest _ hOffers
        cases hExec
        have hTaken : (L.taken i rest source).Worked Q :=
          hWorked.same (L.taken_eq i rest source).2.2.1
        exact hTaken.setPc i _
      · cases hExec
  | work =>
      dsimp only [Lane.act] at hExec
      split at hExec
      · rename_i msg hPc
        rcases Option.map_eq_some_iff.mp hExec with
          ⟨reading, hRead, hEq⟩
        cases hEq
        intro j
        dsimp only
        by_cases hEq : j = i
        · rw [hEq, Function.update_self]
          exact hWork msg reading rfl hPc hRead
        · rw [Function.update_of_ne hEq]
          exact hWorked j
      · cases hExec

end Worked

end Lane

end Relay

end Protocol

------------------------------------------------------------
-- One Message for Each Number
------------------------------------------------------------

namespace Protocol

namespace Relay

variable {α β : Type*} {key : α → β}
variable {sent : List α} {msg : α}

/- A message with a number of its own has no second one. -/
theorem once_append
    (hOnce :
      ∀ x ∈ sent, ∀ y ∈ sent, key x = key y → x = y)
    (hNew : ∀ x ∈ sent, key x ≠ key msg) :
    ∀ x ∈ sent ++ [msg], ∀ y ∈ sent ++ [msg],
      key x = key y → x = y := by
  intro x hx y hy hSame
  rcases List.mem_append.mp hx with hOldX | hNewX
  · rcases List.mem_append.mp hy with hOldY | hNewY
    · exact hOnce x hOldX y hOldY hSame
    · cases List.mem_singleton.mp hNewY
      exact absurd hSame (hNew x hOldX)
  · cases List.mem_singleton.mp hNewX
    rcases List.mem_append.mp hy with hOldY | hNewY
    · exact absurd hSame.symm (hNew y hOldY)
    · exact (List.mem_singleton.mp hNewY).symm

end Relay

end Protocol
