import Jumbo.BinaryAgreement.PartyDuties

/-
  Where messages are, and what a quiescent party has done.

  A message that a party holds outside a handler belongs to
  another loop. So at a party that can take no step, every
  message of its loop has been handled and every signal acted
  on.

  Main declarations:
    * `Placed`
    * `placed`
    * `Halted`
    * `Quiescent.halted`
    * `Quiescent.handled`
-/

------------------------------------------------------------
-- Places of Messages
------------------------------------------------------------

namespace Jumbo

namespace BinaryAgreement

open Protocol

variable {n : Nat}

/- What the place of a message says at a party in `loop`. -/
def Placed (loop : Nat) (m : BAMsg n) : Loc → Prop
| .net => True
| .oldBuf => m.type ≠ .finish
| .newBuf => m.type ≠ .finish ∧ loop < m.loop
| .chan => m.type = .finish ∨ m.loop ≤ loop
| .handled => True
| .dropped => m.type ≠ .finish ∧ m.loop < loop

/- A message goes where its loop and type allow. -/
theorem placed_handleLoopMsg
    (loop : Nat) (m : BAMsg n) :
    Placed loop m (handleLoopMsg loop m) := by
  unfold handleLoopMsg
  split
  · rename_i hType
    exact Or.inl hType
  · rename_i hType
    split
    · rename_i hLt
      exact ⟨hType, hLt⟩
    · split
      · rename_i hGt
        exact ⟨hType, hGt⟩
      · exact Or.inr (by omega)

/- Broadcasts of a step reach the others on the network. -/
theorem publish_loc_new
    (log : BroadcastLog n (BAMsg n) Loc)
    (p q : Fin n) (before after : Nat)
    (ms : List (BAMsg n)) {i : Nat}
    (hGe : log.sent.length ≤ i)
    (hLt : i < log.sent.length + ms.length) :
    (publish log p before after ms).loc q i =
      if q = p then .chan else .net := by
  have hPost :=
    log.postAll_loc_of_ge p q Loc.chan Loc.net ms hGe hLt
  unfold publish
  dsimp only
  split
  · by_cases hq : q = p
    · subst hq
      simp only [checkBuf, BroadcastLog.relocate,
        if_true, hPost]
    · simp only [checkBuf, BroadcastLog.relocate,
        if_neg hq, hPost]
  · exact hPost

/- What others send changes no place at a party. -/
theorem publish_loc_of_ne
    (log : BroadcastLog n (BAMsg n) Loc)
    {p q : Fin n} (before after : Nat)
    (ms : List (BAMsg n)) {i : Nat}
    (hNe : q ≠ p)
    (hLt : i < log.sent.length) :
    (publish log p before after ms).loc q i =
      log.loc q i := by
  have hPost :=
    log.postAll_loc_of_lt p q Loc.chan Loc.net ms hLt
  unfold publish
  dsimp only
  split
  · simp only [checkBuf, BroadcastLog.relocate,
      if_neg hNe, hPost]
  · exact hPost

/- A party's own step moves only what was in its buffers. -/
theorem publish_placed_self
    (log : BroadcastLog n (BAMsg n) Loc)
    (p : Fin n) {before after : Nat}
    (ms : List (BAMsg n)) {i : Nat} {m : BAMsg n}
    (hMsg : log.sent[i]? = some m)
    (hLe : before ≤ after)
    (hPlaced : Placed before m (log.loc p i)) :
    Placed after m
      ((publish log p before after ms).loc p i) := by
  have hLt : i < log.sent.length :=
    (List.getElem?_eq_some_iff.mp hMsg).1
  have hPost :=
    log.postAll_loc_of_lt p p Loc.chan Loc.net ms hLt
  have hSent :=
    log.getElem?_postAll_of_lt p Loc.chan Loc.net ms hLt
  unfold publish
  dsimp only
  split
  · simp only [checkBuf, BroadcastLog.relocate, if_true,
      hPost, hSent, hMsg, Option.all_some,
      decide_eq_true_eq]
    cases hLoc : log.loc p i with
    | net => trivial
    | oldBuf =>
        rw [hLoc] at hPlaced
        dsimp only
        split
        · exact hPlaced
        · rename_i hHeight
          exact ⟨hPlaced, by omega⟩
    | newBuf =>
        rw [hLoc] at hPlaced
        exact hPlaced.1
    | chan =>
        rw [hLoc] at hPlaced
        exact hPlaced.imp_right fun h => h.trans hLe
    | handled => trivial
    | dropped =>
        rw [hLoc] at hPlaced
        exact ⟨hPlaced.1, Nat.lt_of_lt_of_le hPlaced.2 hLe⟩
  · rename_i hNot
    have hSame : after = before := by omega
    rw [hPost, hSame]
    exact hPlaced

/- A party goes to later loops only. -/
theorem PartyStep.loop_le
    {cfg : Config} {id : Fin n} {ba ba' : BA}
    {event : Event} {ms : List (BAMsg n)}
    (hStep : PartyStep cfg id ba event ba' ms) :
    ba.loop ≤ ba'.loop := by
  cases hStep with
  | elect hMain =>
      rcases elect_cases cfg ba with
        ⟨value, hEq⟩ | ⟨input, hEq⟩
      · rw [hEq]
      · rw [hEq]
        exact Nat.le_succ _
  | _ => exact Nat.le_refl _

/- A party sends in its loop and in earlier ones. -/
theorem PartyStep.sent_loop
    {cfg : Config} {id : Fin n} {ba ba' : BA}
    {event : Event} {ms : List (BAMsg n)}
    (hStep : PartyStep cfg id ba event ba' ms) :
    ∀ m ∈ ms, m.type = .finish ∨ m.loop ≤ ba.loop := by
  intro m hm
  cases hStep with
  | loop loop event info ms second hLoop hLoopStep =>
      right
      cases hLoopStep <;>
        simp only [List.not_mem_nil,
          List.mem_singleton] at hm
      all_goals
        rw [hm]
        exact hLoop
  | finish value =>
      left
      rw [List.mem_singleton.mp hm]
      rfl
  | _ => cases hm

/- Receiving leaves the loop. -/
theorem receive_loop
    {id : Fin n} {ba ba' : BA} {m : BAMsg n}
    (hReceive : ba.receive id m = some ba') :
    ba'.loop = ba.loop := by
  rcases receive_cases hReceive with
    ⟨_, _, hEq⟩ | ⟨_, _, hEq⟩
  · rw [hEq]
    rfl
  · rw [hEq, handleFinish_loop]

/- A party that has not been launched is in loop zero. -/
theorem idle_loop
    {cfg : Config} {ok : State n → Action n → Prop}
    {s : State n}
    (hReach : (machine n cfg).ReachableBy ok s)
    (p : Fin n) :
    (s.party p).launched = false →
      (s.party p).loop = 0 := by
  refine local_rule
    (fun _ _ ba => ba.launched = false → ba.loop = 0)
    ?_ ?_ ?_ hReach p
  · exact fun p _ => rfl
  · exact fun sent p ba ms hOld _ => hOld
  · intro s a p ba ms _ hAll _ hChange hIdle
    cases hChange with
    | launch => rfl
    | second => exact hAll p hIdle
    | handle _ i m _ hLaunched hMsg hLoc hReceive =>
        rw [receive_launched hReceive, hLaunched] at hIdle
        cases hIdle
    | go _ event _ _ hLaunched hStep =>
        rw [hStep.launched hLaunched] at hIdle
        cases hIdle

------------------------------------------------------------
-- Places in Every Run
------------------------------------------------------------

/- Every message is where the loop of its receiver says. -/
theorem placed
    {cfg : Config} {ok : State n → Action n → Prop}
    {s : State n}
    (hReach : (machine n cfg).ReachableBy ok s)
    (p : Fin n) {i : Nat} {m : BAMsg n}
    (hMsg : s.log.sent[i]? = some m) :
    Placed (s.party p).loop m (s.log.loc p i) := by
  induction hReach generalizing p i m with
  | init => cases hMsg
  | @step s s' a hBefore hOk hStep ih =>
      have hExec : exec cfg s a = some s' := hStep
      cases a with
      | launch q input =>
          rcases Option.ite_none_right_eq_some.mp hExec with
            ⟨hIdle, hEq⟩
          cases hEq
          have hOld := ih p hMsg
          by_cases hp : p = q
          · subst hp
            have hNot :
                (s.party p).launched = false := by
              simp only [Bool.and_eq_true,
                Bool.not_eq_true'] at hIdle
              exact hIdle.2
            rw [idle_loop hBefore p hNot] at hOld
            simpa [State.setParty, BA.startLoop] using hOld
          · simpa [State.setParty, Function.update_of_ne hp]
              using hOld
      | second q =>
          rcases Option.ite_none_right_eq_some.mp hExec with
            ⟨_, hEq⟩
          cases hEq
          have hOld := ih p hMsg
          by_cases hp : p = q
          · subst hp
            simpa [State.setParty] using hOld
          · simpa [State.setParty, Function.update_of_ne hp]
              using hOld
      | crash q =>
          cases hExec
          exact ih p hMsg
      | route q j =>
          simp only [exec] at hExec
          split at hExec
          · rename_i m' hMsg'
            split at hExec
            · cases hExec
              by_cases hSame : p = q ∧ i = j
              · rcases hSame with ⟨rfl, rfl⟩
                have hEq : m' = m := by
                  rw [BroadcastLog.move_sent] at hMsg
                  rw [hMsg] at hMsg'
                  exact (Option.some.inj hMsg').symm
                rw [BroadcastLog.move_loc_self, hEq]
                exact placed_handleLoopMsg _ m
              · rw [BroadcastLog.move_loc_of_ne _ _
                  (not_and_or.mp hSame)]
                exact ih p hMsg
            · cases hExec
          · cases hExec
      | handle q j =>
          simp only [exec] at hExec
          split at hExec
          · split at hExec
            · split at hExec
              · rename_i ba hReceive
                cases hExec
                by_cases hSame : p = q ∧ i = j
                · rcases hSame with ⟨rfl, rfl⟩
                  rw [BroadcastLog.move_loc_self]
                  trivial
                · rw [BroadcastLog.move_loc_of_ne _ _
                    (not_and_or.mp hSame)]
                  have hOld := ih p hMsg
                  by_cases hp : p = q
                  · subst hp
                    simpa [State.setParty,
                      receive_loop hReceive] using hOld
                  · simpa [State.setParty,
                      Function.update_of_ne hp] using hOld
              · cases hExec
            · cases hExec
          · cases hExec
      | go q event =>
          simp only [exec] at hExec
          split at hExec
          · split at hExec
            · rename_i ba ms hRun
              cases hExec
              have hParty := partyStep_of_step hRun
              have hSent : (s.log.sent ++ ms)[i]? = some m := by
                simpa using hMsg
              by_cases hLt : i < s.log.sent.length
              · rw [List.getElem?_append_left hLt] at hSent
                have hOld := ih p hSent
                by_cases hp : p = q
                · subst hp
                  simpa [State.setParty] using
                    publish_placed_self s.log p ms hSent
                      hParty.loop_le hOld
                · simpa [State.setParty,
                    Function.update_of_ne hp,
                    publish_loc_of_ne s.log _ _ ms hp hLt]
                    using hOld
              · have hGe := Nat.le_of_not_lt hLt
                have hBound :
                    i < s.log.sent.length + ms.length := by
                  have hSome :=
                    (List.getElem?_eq_some_iff.mp hSent).1
                  simpa using hSome
                rw [List.getElem?_append_right hGe] at hSent
                have hMem := List.mem_of_getElem? hSent
                dsimp only
                rw [publish_loc_new s.log q p _ _ ms hGe
                  hBound]
                by_cases hp : p = q
                · subst hp
                  rw [if_pos rfl]
                  simp only [State.setParty,
                    Function.update_self]
                  exact (hParty.sent_loop m hMem).imp_right
                    fun h => h.trans hParty.loop_le
                · rw [if_neg hp]
                  trivial
            · cases hExec
          · cases hExec

end BinaryAgreement

end Jumbo

------------------------------------------------------------
-- Parties That Can Take No Step
------------------------------------------------------------

namespace Jumbo

namespace BinaryAgreement

open Protocol

variable {n : Nat}

/- No goroutine of the party finds anything to do. -/
structure Halted (ba : BA) : Prop where
  val :
    ∀ loop, loop ≤ ba.loop →
      (ba.loops loop).sendValNow = none ∧
        ((ba.loops loop).sendValSignal = [] ∨
          ∀ b, (ba.loops loop).valSent b = true)
  aux :
    ∀ loop, loop ≤ ba.loop →
      (ba.loops loop).sendAuxSignal = [] ∨
        ∀ b, (ba.loops loop).auxSent b = true
  conf :
    ∀ loop, loop ≤ ba.loop →
      (ba.loops loop).sendConf ≠ .pending
  finish : ba.sendFinishSignal = [] ∨ ba.sendFinish = 0
  mainConf :
    ∀ flags, ba.main = .conf flags →
      ∀ signal, ba.info.takeConf signal = none
  mainCoin :
    ∀ flags, ba.main = .coin flags →
      ∀ signal, ba.info.takeCoin signal = none
  mainElect : ba.main ≠ .elect

/- A live party that has not put out has no step left. -/
theorem Quiescent.step_none
    {cfg : Config} {s : State n} {p : Fin n}
    (hQuiet : Quiescent cfg s)
    (hAlive : s.crashed p = false)
    (hLaunched : (s.party p).launched = true)
    (hOutput : (s.party p).output = none)
    (event : Event) :
    (s.party p).step cfg p event = none := by
  have hNone :=
    hQuiet p hAlive hOutput (.go p event)
      (by simp [Action.byParty])
  have hRun : s.running p = true := by
    simp [State.running, hAlive, hLaunched]
  cases hStep : (s.party p).step cfg p event with
  | none => rfl
  | some next => simp [exec, hRun, hStep] at hNone

/- No goroutine of it has a signal to take. -/
theorem halted_of_step_none
    {cfg : Config} {id : Fin n} {ba : BA}
    (hNone : ∀ event, ba.step cfg id event = none) :
    Halted ba where
  val := by
    intro loop hLoop
    have hDone := hNone (.sendValDone loop)
    have hVal := hNone (.sendVal loop)
    simp only [BA.step, if_pos hLoop] at hDone hVal
    unfold BA.sendValDone at hDone
    dsimp only at hDone
    split at hDone
    · cases hDone
    · rename_i hNow
      refine ⟨hNow, ?_⟩
      unfold BA.sendVal at hVal
      dsimp only at hVal
      split at hVal
      · rename_i hBoth
        right
        simp only [Bool.and_eq_true] at hBoth
        intro b
        cases b
        · exact hBoth.1
        · exact hBoth.2
      · left
        cases hSignal : (ba.loops loop).sendValSignal with
        | nil => rfl
        | cons value rest =>
            simp only [hNow, hSignal] at hVal
            split at hVal <;> cases hVal
  aux := by
    intro loop hLoop
    have hAux := hNone (.sendAux loop)
    simp only [BA.step, if_pos hLoop] at hAux
    unfold BA.sendAux at hAux
    dsimp only at hAux
    split at hAux
    · rename_i hBoth
      right
      simp only [Bool.and_eq_true] at hBoth
      intro b
      cases b
      · exact hBoth.1
      · exact hBoth.2
    · left
      cases hSignal : (ba.loops loop).sendAuxSignal with
      | nil => rfl
      | cons value rest =>
          simp only [hSignal] at hAux
          split at hAux <;> cases hAux
  conf := by
    intro loop hLoop hPending
    have hConf := hNone (.sendConf loop)
    simp [BA.step, hLoop, BA.sendConf, hPending] at hConf
  finish := by
    have hFinish := hNone .sendFinish
    simp only [BA.step, BA.sendFinishStep] at hFinish
    cases hSignal : ba.sendFinishSignal with
    | nil => exact Or.inl rfl
    | cons value rest =>
        right
        simp only [hSignal] at hFinish
        split at hFinish
        · cases hFinish
        · omega
  mainConf := by
    intro flags hMain signal
    have hConf := hNone (.mainConf signal)
    simp only [BA.step, BA.mainConf, hMain] at hConf
    cases hTake : ba.info.takeConf signal with
    | none => rfl
    | some info =>
        simp only [hTake] at hConf
        split at hConf <;> cases hConf
  mainCoin := by
    intro flags hMain signal
    have hCoin := hNone (.mainCoin signal)
    simp only [BA.step, BA.mainCoin, hMain] at hCoin
    cases hTake : ba.info.takeCoin signal with
    | none => rfl
    | some info =>
        simp only [hTake] at hCoin
        cases hCoin
  mainElect := by
    intro hMain
    have hElect := hNone .mainElect
    simp [BA.step, BA.mainElect, hMain] at hElect

/- Messages of the party's own loop have been handled. -/
theorem Quiescent.handled
    {cfg : Config} {ok : State n → Action n → Prop}
    {s : State n} {p : Fin n} {i : Nat} {m : BAMsg n}
    (hQuiet : Quiescent cfg s)
    (hReach : (machine n cfg).ReachableBy ok s)
    (hAlive : s.crashed p = false)
    (hLaunched : (s.party p).launched = true)
    (hOutput : (s.party p).output = none)
    (hMsg : s.log.sent[i]? = some m)
    (hKind :
      m.type = .finish ∨ m.loop = (s.party p).loop) :
    s.log.loc p i = .handled := by
  have hPlaced := placed hReach p hMsg
  have hRun : s.running p = true := by
    simp [State.running, hAlive, hLaunched]
  have hRoute :=
    hQuiet p hAlive hOutput (.route p i)
      (by simp [Action.byParty])
  have hHandle :=
    hQuiet p hAlive hOutput (.handle p i)
      (by simp [Action.byParty])
  cases hLoc : s.log.loc p i with
  | net => simp [exec, hMsg, hRun, hLoc] at hRoute
  | oldBuf => simp [exec, hMsg, hRun, hLoc] at hRoute
  | newBuf =>
      rw [hLoc] at hPlaced
      rcases hPlaced with ⟨hType, hLt⟩
      rcases hKind with hFinish | hLoop
      · exact absurd hFinish hType
      · omega
  | chan =>
      rw [hLoc] at hPlaced
      have hReceive :
          ∃ ba, (s.party p).receive p m = some ba := by
        unfold BA.receive
        cases hType : m.type with
        | finish => exact ⟨_, if_pos (by simp [hOutput])⟩
        | val | aux | conf =>
            have hLoop : m.loop ≤ (s.party p).loop := by
              rcases hPlaced with hFinish | hLe
              · rw [hType] at hFinish
                cases hFinish
              · exact hLe
            exact ⟨_, if_pos hLoop⟩
      rcases hReceive with ⟨ba, hReceive⟩
      simp [exec, hMsg, hRun, hLoc, hReceive] at hHandle
  | handled => rfl
  | dropped =>
      rw [hLoc] at hPlaced
      rcases hPlaced with ⟨hType, hLt⟩
      rcases hKind with hFinish | hLoop
      · exact absurd hFinish hType
      · omega

end BinaryAgreement

end Jumbo

------------------------------------------------------------
-- Deciding Quiescence
------------------------------------------------------------

namespace Jumbo

namespace BinaryAgreement

open Protocol

variable {n : Nat}

/- The signals a main loop waits for. -/
def Signal.all : List Signal :=
  [.value false, .value true, .quorum false, .quorum true,
    .mix]

/- The events of a party that has entered loop `loop`. -/
def Event.upTo (loop : Nat) : List Event :=
  ([.sendSencondVal, .sendSencondValDone, .sendFinish,
    .mainElect] : List Event) ++
    (Signal.all.flatMap (fun signal =>
      [.mainConf signal, .mainCoin signal]) : List Event) ++
    ((List.range (loop + 1)).flatMap fun loop =>
      [.sendVal loop, .sendValDone loop, .sendAux loop,
        .sendConf loop] : List Event)

/- The actions by `p` that could be enabled. -/
def Action.candidates
    (s : State n) (p : Fin n) : List (Action n) :=
  (List.range s.log.sent.length).flatMap (fun i =>
    [.route p i, .handle p i]) ++
    (Event.upTo (s.party p).loop).map (.go p)

/- There are no others. -/
theorem Signal.mem_all (signal : Signal) :
    signal ∈ Signal.all := by
  cases signal with
  | value b | quorum b => cases b <;> simp [Signal.all]
  | mix => simp [Signal.all]

/- No other action by a party is ever enabled. -/
theorem exec_eq_none_of_not_mem
    {cfg : Config} {s : State n} {p : Fin n}
    {a : Action n}
    (hByParty : a.byParty p = true)
    (hNot : a ∉ Action.candidates s p) :
    exec cfg s a = none := by
  have hLate :
      ∀ i, i ∉ List.range s.log.sent.length →
        s.log.sent[i]? = none := by
    intro i hi
    apply List.getElem?_eq_none
    simpa using hi
  cases a with
  | launch | second | crash => cases hByParty
  | route q i =>
      have hq : q = p := by simpa [Action.byParty] using hByParty
      subst hq
      have hNone := hLate i fun hi => hNot (by
        apply List.mem_append_left
        exact List.mem_flatMap.mpr ⟨i, hi, by simp⟩)
      simp [exec, hNone]
  | handle q i =>
      have hq : q = p := by simpa [Action.byParty] using hByParty
      subst hq
      have hNone := hLate i fun hi => hNot (by
        apply List.mem_append_left
        exact List.mem_flatMap.mpr ⟨i, hi, by simp⟩)
      simp [exec, hNone]
  | go q event =>
      have hq : q = p := by simpa [Action.byParty] using hByParty
      subst hq
      have hEvent :
          event ∉ Event.upTo (s.party q).loop := by
        intro hMem
        exact hNot (List.mem_append_right _
          (List.mem_map.mpr ⟨event, hMem, rfl⟩))
      have hStep : (s.party q).step cfg q event = none := by
        cases event with
        | sendVal loop | sendValDone loop | sendAux loop
        | sendConf loop =>
            have hLoop : ¬ loop ≤ (s.party q).loop := by
              intro hLe
              apply hEvent
              simp only [Event.upTo, List.mem_append,
                List.mem_flatMap, List.mem_range]
              exact Or.inr ⟨loop, by omega, by simp⟩
            simp only [BA.step, if_neg hLoop]
        | sendSencondVal | sendSencondValDone | sendFinish
        | mainElect =>
            exact absurd (by simp [Event.upTo]) hEvent
        | mainConf signal | mainCoin signal =>
            exact absurd
              (by simp [Event.upTo, Signal.mem_all]) hEvent
      simp only [exec, hStep]
      split <;> rfl

/- Quiescence is a check of finitely many actions. -/
theorem quiescent_iff
    (cfg : Config) (s : State n) :
    Quiescent cfg s ↔
      ∀ p, s.crashed p = false →
        (s.party p).output.isNone = true →
          ∀ a ∈ Action.candidates s p,
            (exec cfg s a).isNone = true := by
  constructor
  · intro hQuiet p hAlive hOutput a hMem
    have hByParty : a.byParty p = true := by
      simp only [Action.candidates, List.mem_append,
        List.mem_flatMap, List.mem_map] at hMem
      rcases hMem with ⟨i, _, hMem⟩ | ⟨event, _, rfl⟩
      · simp only [List.mem_cons, List.not_mem_nil,
          or_false] at hMem
        rcases hMem with rfl | rfl <;>
          simp [Action.byParty]
      · simp [Action.byParty]
    rw [hQuiet p hAlive (by simpa using hOutput) a hByParty]
    rfl
  · intro hCheck p hAlive hOutput a hByParty
    by_cases hMem : a ∈ Action.candidates s p
    · simpa using
        hCheck p hAlive (by simp [hOutput]) a hMem
    · exact exec_eq_none_of_not_mem hByParty hMem

/- Whether a state is quiescent can be evaluated. -/
instance decidableQuiescent
    (cfg : Config) (s : State n) :
    Decidable (Quiescent cfg s) :=
  decidable_of_iff _ (quiescent_iff cfg s).symm

end BinaryAgreement

end Jumbo
