import Jumbo.Lib.Threshold
import Jumbo.BinaryAgreement.Counting
import Jumbo.WeakBroadcast.Basic

/-
  The threshold counters of the signature-free protocols.

  No handler looks at the sender of a message, so a counter
  fires for its quota of distinct senders exactly in those
  runs in which no sender has been counted twice.

  Main declarations:
    * `Site`
    * `Site.counter`
    * `Site.quota_distinct_iff`
    * `countsSenders_repeatedEcho`
-/

------------------------------------------------------------
-- The Broadcast with Finish
------------------------------------------------------------

namespace Jumbo

namespace Thresholds

open Protocol

section ReliableBroadcast

open ReliableBroadcast

variable (n : Nat) (round : Int)

/- A message of this type and round. -/
def isType (type : RBCMsgType) (m : RBCMsg n) : Bool :=
  m.type = type && m.round = round

/- A follower's `handle_echo` at `2f + 1`. -/
def followerEcho (value : Bytes) : Counter n :=
  .ofHandler HandleEcho.new (·.returned)
    (isType n round .echo)
    (fun g m => (g.read n m.root).1)
    (fun g m => (g.read n m.root).2 = some value)
    (fun m => m.root = value) (·.id)
    (threshold n * 2 + 1)

/- A follower's `handle_ready` at one of its thresholds. -/
def followerReady
    (fired : ReadyFired → Bool) (quota : Nat)
    (value : Bytes) : Counter n :=
  .ofHandler HandleReady.new (·.returned)
    (isType n round .ready)
    (fun g m => (g.read n m.root).1)
    (fun g m =>
      m.root = value && fired (g.read n m.root).2)
    (fun m => m.root = value) (·.id) quota

/- A follower's `handle_finish` at `2f + 1`. -/
def followerFinish (value : Bytes) : Counter n :=
  .ofHandler HandleFinish.new (·.returned)
    (isType n round .finish)
    (fun g m => (g.read n m.root).1)
    (fun g m =>
      m.root = value && (g.read n m.root).2)
    (fun m => m.root = value) (·.id)
    (threshold n * 2 + 1)

/- The broadcaster's `handle_echo` at `2f + 1`. -/
def leaderEcho (input : Bytes) : Counter n :=
  .ofHandler 0 (fun _ => false)
    (isType n round .echo)
    (fun s m => (leaderHandleEcho n input s m.root).1)
    (fun s m => (leaderHandleEcho n input s m.root).2)
    (fun m => m.root = input) (·.id)
    (threshold n * 2 + 1)

/- The broadcaster's `handle_ready`. -/
def leaderReady
    (fired : ReadyFired → Bool) (quota : Nat)
    (input : Bytes) : Counter n :=
  .ofHandler (0, false) (·.2)
    (isType n round .ready)
    (fun s m =>
      let (readycount, fired) :=
        leaderHandleReady n input s.1 m.root
      (readycount, fired.deliver))
    (fun s m =>
      fired (leaderHandleReady n input s.1 m.root).2)
    (fun m => m.root = input) (·.id) quota

/- The broadcaster's `handle_finish` at `2f`. -/
def leaderFinish (input : Bytes) : Counter n :=
  .ofHandler (0, false) (·.2)
    (isType n round .finish)
    (fun s m => leaderHandleFinish n input s.1 m.root)
    (fun s m => (leaderHandleFinish n input s.1 m.root).2)
    (fun m => m.root = input) (·.id) (threshold n * 2)

variable {n round}

/- The follower counts the ECHO messages for a value. -/
theorem followerEcho_lawful (value : Bytes) :
    (followerEcho n round value).Lawful
      (fun g => HandleEcho.echomap g value)
      HandleEcho.returned := by
  apply Counter.lawful_ofHandler
      (fun g : HandleEcho => g.echomap value) rfl
  · intro g m _ _
    simp [HandleEcho.read, increment_apply]
  · intro g m _ _ hSignal
    simp only [HandleEcho.read, decide_eq_true_eq,
      Option.ite_none_right_eq_some,
      Option.some.injEq] at hSignal ⊢
    rcases hSignal with ⟨hQuota, hRoot⟩
    rw [hRoot] at hQuota ⊢
    exact hQuota

/- The follower counts the READY messages for a value. -/
theorem followerReady_lawful
    (value : Bytes) {fired : ReadyFired → Bool}
    {quota : Nat}
    (hFired :
      ∀ g : HandleReady,
        fired (g.read n value).2 = true →
          (g.read n value).1.readymap value = quota) :
    (followerReady n round fired quota value).Lawful
      (fun g => HandleReady.readymap g value)
      HandleReady.returned := by
  apply Counter.lawful_ofHandler
      (fun g : HandleReady => g.readymap value) rfl
  · intro g m _ _
    simp [HandleReady.read, increment_apply]
  · intro g m _ _ hSignal
    simp only [Bool.and_eq_true,
      decide_eq_true_eq] at hSignal
    rcases hSignal with ⟨hRoot, hSignal⟩
    rw [hRoot] at hSignal ⊢
    exact hFired g hSignal

/- The follower counts the FINISH messages for a value. -/
theorem followerFinish_lawful (value : Bytes) :
    (followerFinish n round value).Lawful
      (fun g => HandleFinish.finishmap g value)
      HandleFinish.returned := by
  apply Counter.lawful_ofHandler
      (fun g : HandleFinish => g.finishmap value) rfl
  · intro g m _ _
    simp [HandleFinish.read, increment_apply]
  · intro g m _ _ hSignal
    simp only [HandleFinish.read, Bool.and_eq_true,
      decide_eq_true_eq] at hSignal ⊢
    rcases hSignal with ⟨hRoot, hQuota⟩
    rw [hRoot] at hQuota ⊢
    exact hQuota

/- The leader counts the ECHO messages for its input. -/
theorem leaderEcho_lawful (input : Bytes) :
    (leaderEcho n round input).Lawful
      (fun s => s) (fun _ => false) := by
  apply Counter.lawful_ofHandler (fun s : Nat => s) rfl
  · intro s m _ _
    by_cases hRoot : m.root = input <;>
      simp [leaderHandleEcho, hRoot]
  · intro s m _ _ hSignal
    simpa [leaderHandleEcho] using hSignal

/- The leader counts the READY messages for its input. -/
theorem leaderReady_lawful
    (input : Bytes) {fired : ReadyFired → Bool}
    {quota : Nat}
    (hFired :
      ∀ s root,
        fired (leaderHandleReady n input s root).2 = true →
          (leaderHandleReady n input s root).1 = quota) :
    (leaderReady n round fired quota input).Lawful
      (fun s => s.1) (fun s => s.2) := by
  apply Counter.lawful_ofHandler
      (fun s : Nat × Bool => s.1) rfl
  · intro s m _ _
    by_cases hRoot : m.root = input <;>
      simp [leaderHandleReady, hRoot]
  · intro s m _ _ hSignal
    exact hFired s.1 m.root hSignal

/- The leader counts the FINISH messages for its input. -/
theorem leaderFinish_lawful (input : Bytes) :
    (leaderFinish n round input).Lawful
      (fun s => s.1) (fun s => s.2) := by
  apply Counter.lawful_ofHandler
      (fun s : Nat × Bool => s.1) rfl
  · intro s m _ _
    by_cases hRoot : m.root = input <;>
      simp [leaderHandleFinish, hRoot]
  · intro s m _ _ hSignal
    by_cases hRoot : m.root = input
    · simpa [leaderHandleFinish, hRoot] using hSignal
    · simp [leaderHandleFinish, hRoot] at hSignal

end ReliableBroadcast

end Thresholds

end Jumbo

------------------------------------------------------------
-- The Binary Agreement
------------------------------------------------------------

namespace Jumbo

namespace Thresholds

open Protocol

section BinaryAgreement

open BinaryAgreement

variable (n : Nat) (loop : Nat)

/- A message of this type and loop. -/
def isLoopType (type : BAMsgType) (m : BAMsg n) : Bool :=
  m.type = type && m.loop = loop

/- A counter of `handle_val`, by the signal it gives. -/
def val
    (signal : LoopInfo → LoopInfo → Bool) (quota : Nat)
    (value : Bool) : Counter n :=
  .ofHandler (LoopInfo.new false) (fun _ => false)
    (isLoopType n loop .val)
    (fun info m => handleVal (faults n) info m.value)
    (fun info m =>
      m.value = value &&
        signal info (handleVal (faults n) info m.value))
    (fun m => m.value = value) (·.id) quota

/- A signal for `sendval` was put. -/
def signalsVal (old new : LoopInfo) : Bool :=
  new.sendValSignal != old.sendValSignal

/- A signal `value*ready` was put. -/
def signalsValue (value : Bool) (old new : LoopInfo) : Bool :=
  new.valueReady value != old.valueReady value

/- `handle_aux` at `2f + 1` for one value. -/
def aux (value : Bool) : Counter n :=
  .ofHandler (LoopInfo.new false) (fun _ => false)
    (isLoopType n loop .aux)
    (fun info m => handleAux (faults n) info m.value)
    (fun info m =>
      (handleAux (faults n) info m.value).auxReady value !=
        info.auxReady value)
    (fun m => m.value = value) (·.id) (faults n * 2 + 1)

/- `handle_aux` at `2f + 1` for any values. -/
def auxMix : Counter n :=
  .ofHandler (LoopInfo.new false) (fun _ => false)
    (isLoopType n loop .aux)
    (fun info m => handleAux (faults n) info m.value)
    (fun info m =>
      (handleAux (faults n) info m.value).auxMixReady !=
        info.auxMixReady)
    (fun _ => true) (·.id) (faults n * 2 + 1)

/- `handle_conf` at `2f + 1` for one value. -/
def conf (value : Bool) : Counter n :=
  .ofHandler (LoopInfo.new false) (fun _ => false)
    (isLoopType n loop .conf)
    (fun info m => handleConf (faults n) info m.confValue)
    (fun info m =>
      (handleConf (faults n) info m.confValue).confReady
          value != info.confReady value)
    (fun m => m.confValue = Values.only value) (·.id)
    (faults n * 2 + 1)

/- `handle_conf` at `2f + 1` for any values. -/
def confMix : Counter n :=
  .ofHandler (LoopInfo.new false) (fun _ => false)
    (isLoopType n loop .conf)
    (fun info m => handleConf (faults n) info m.confValue)
    (fun info m =>
      (handleConf (faults n) info m.confValue).confMixReady
          != info.confMixReady)
    (fun m => m.confValue ≠ ⟨false, false⟩) (·.id)
    (faults n * 2 + 1)

/- A counter of `handle_finish`, by the signal it gives. -/
def finish
    (signal : BA → BA → Bool) (quota : Nat)
    (value : Bool) : Counter n :=
  .ofHandler BA.new (·.output.isSome)
    (fun m : BAMsg n => m.type = .finish)
    (fun ba m => handleFinish (faults n) ba m.value)
    (fun ba m =>
      m.value = value &&
        signal ba (handleFinish (faults n) ba m.value))
    (fun m => m.value = value) (·.id) quota

/- A signal for `sendfinish` was put. -/
def signalsFinish (old new : BA) : Bool :=
  new.sendFinishSignal != old.sendFinishSignal

/- The output was made. -/
def signalsOutput (_ new : BA) : Bool :=
  new.output.isSome

variable {n loop}

/- A field changed at a quota only changes at that quota. -/
theorem quota_of_ne
    {α : Type} (read : α → Nat) {count quota : Nat}
    {old new : α}
    (hNe :
      (read (if count = quota then new else old) !=
        read old) = true) :
    count = quota := by
  by_contra hQuota
  rw [if_neg hQuota] at hNe
  simp at hNe

/- VAL messages are counted for a value. -/
theorem val_lawful
    (value : Bool) {signal : LoopInfo → LoopInfo → Bool}
    {quota : Nat}
    (hSignal :
      ∀ info,
        signal info (handleVal (faults n) info value) = true →
          info.vCount value + 1 = quota) :
    (val n loop signal quota value).Lawful
      (fun info => LoopInfo.vCount info value)
      (fun _ => false) := by
  have hCount :
      ∀ info (b : Bool),
        (handleVal (faults n) info b).vCount value =
          info.vCount value + if b = value then 1 else 0 := by
    intro info b
    have hCounts := handleVal_counts (faults n) info b
    have hEq :
        (handleVal (faults n) info b).vCount =
          bump info.vCount b :=
      congrArg Counts.vCount hCounts
    rw [hEq, bump_apply]
    simp only [eq_comm]
  apply Counter.lawful_ofHandler
      (fun info : LoopInfo => info.vCount value) rfl
  · intro info m _ _
    simpa using hCount info m.value
  · intro info m _ _ hFires
    simp only [Bool.and_eq_true,
      decide_eq_true_eq] at hFires
    rcases hFires with ⟨hValue, hFires⟩
    rw [hValue] at hFires
    calc
      (handleVal (faults n) info m.value).vCount value
          = info.vCount value +
              if m.value = value then 1 else 0 :=
        hCount info m.value
      _ = info.vCount value + 1 := by rw [if_pos hValue]
      _ = quota := hSignal info hFires

/- `sendval` is signalled at `f + 1`. -/
theorem quota_of_signalsVal
    (info : LoopInfo) (value : Bool)
    (hSignal :
      signalsVal info
        (handleVal (faults n) info value) = true) :
    info.vCount value + 1 = faults n + 1 := by
  unfold signalsVal handleVal at hSignal
  simp only [bump_apply, if_true] at hSignal
  split at hSignal
  · assumption
  · split at hSignal
    · split at hSignal <;> simp at hSignal
    · simp at hSignal

/- `value0ready` and `value1ready` are signalled at `2f + 1`. -/
theorem quota_of_signalsValue
    (info : LoopInfo) (value : Bool)
    (hSignal :
      signalsValue value info
        (handleVal (faults n) info value) = true) :
    info.vCount value + 1 = faults n * 2 + 1 := by
  unfold signalsValue handleVal at hSignal
  simp only [bump_apply, if_true] at hSignal
  split at hSignal
  · simp at hSignal
  · split at hSignal
    · assumption
    · simp at hSignal

/- AUX messages are counted for a value. -/
theorem aux_lawful (value : Bool) :
    (aux n loop value).Lawful
      (fun info => LoopInfo.auxCount info value)
      (fun _ => false) := by
  apply Counter.lawful_ofHandler
      (fun info : LoopInfo => info.auxCount value) rfl
  · intro info m _ _
    rw [handleAux_eq]
    simp [eq_comm]
  · intro info m _ _ hFires
    rw [handleAux_eq] at hFires ⊢
    by_cases hValue : value = m.value
    · subst hValue
      simpa using
        quota_of_ne (fun ready : Bool → Nat => ready m.value)
          hFires
    · split at hFires <;> simp [hValue] at hFires

/- AUX messages are counted together. -/
theorem auxMix_lawful :
    (auxMix n loop).Lawful LoopInfo.auxMixCount
      (fun _ => false) := by
  apply Counter.lawful_ofHandler LoopInfo.auxMixCount rfl
  · intro info m _ _
    rw [handleAux_eq]
    rfl
  · intro info m _ _ hFires
    rw [handleAux_eq] at hFires ⊢
    exact quota_of_ne (fun ready => ready) hFires

/- CONF messages are counted for a value. -/
theorem conf_lawful (value : Bool) :
    (conf n loop value).Lawful
      (fun info => LoopInfo.confCount info value)
      (fun _ => false) := by
  apply Counter.lawful_ofHandler
      (fun info : LoopInfo => info.confCount value) rfl
  · intro info m _ _
    simpa [LoopInfo.counts] using
      handleConf_confCount (faults n) info m.confValue value
  · intro info m _ _ hFires
    rcases handleConf_cases (faults n) info m.confValue with
      ⟨_, hEq⟩ | ⟨_, hEq⟩ | ⟨b, _, hEq⟩
    · simp [hEq] at hFires
    · simp [hEq, countConfMix_eq] at hFires
    · rw [hEq, countConf_eq] at hFires ⊢
      by_cases hValue : value = b
      · subst hValue
        simpa using
          quota_of_ne (fun ready : Bool → Nat => ready value)
            hFires
      · split at hFires <;> simp [hValue] at hFires

/- CONF messages with some flag are counted together. -/
theorem confMix_lawful :
    (confMix n loop).Lawful LoopInfo.confMixCount
      (fun _ => false) := by
  apply Counter.lawful_ofHandler LoopInfo.confMixCount rfl
  · intro info m _ _
    have hCount :=
      handleConf_confMixCount (faults n) info m.confValue
    by_cases hEmpty : m.confValue = ⟨false, false⟩ <;>
      simpa [hEmpty, LoopInfo.counts] using hCount
  · intro info m _ _ hFires
    rcases handleConf_cases (faults n) info m.confValue with
      ⟨_, hEq⟩ | ⟨_, hEq⟩ | ⟨b, _, hEq⟩
    · simp [hEq] at hFires
    · rw [hEq, countConfMix_eq] at hFires ⊢
      exact quota_of_ne (fun ready => ready) hFires
    · rw [hEq, countConf_eq] at hFires ⊢
      exact quota_of_ne (fun ready => ready) hFires

/- FINISH messages are counted for a value. -/
theorem finish_lawful
    (value : Bool) {signal : BA → BA → Bool} {quota : Nat}
    (hSignal :
      ∀ ba : BA, ba.output = none →
        signal ba (handleFinish (faults n) ba value) = true →
          ba.finishCount value + 1 = quota) :
    (finish n signal quota value).Lawful
      (fun ba => BA.finishCount ba value)
      (fun ba => ba.output.isSome) := by
  apply Counter.lawful_ofHandler
      (fun ba : BA => ba.finishCount value) rfl
  · intro ba m _ _
    rw [handleFinish_finishCount]
    simp [eq_comm]
  · intro ba m hRuns _ hFires
    simp only [Bool.and_eq_true,
      decide_eq_true_eq] at hFires
    rcases hFires with ⟨hValue, hFires⟩
    rw [handleFinish_finishCount, hValue] at *
    simpa using
      hSignal ba (by simpa using hRuns) hFires

/- `sendfinish` is signalled at `f + 1`. -/
theorem quota_of_signalsFinish
    (ba : BA) (value : Bool)
    (hSignal :
      signalsFinish ba
        (handleFinish (faults n) ba value) = true) :
    ba.finishCount value + 1 = faults n + 1 := by
  unfold signalsFinish handleFinish at hSignal
  simp only [bump_apply, if_true] at hSignal
  split at hSignal
  · assumption
  · split at hSignal <;> simp at hSignal

/- The output is given at `2f + 1`. -/
theorem quota_of_signalsOutput
    (ba : BA) (value : Bool) (hNone : ba.output = none)
    (hSignal :
      signalsOutput ba
        (handleFinish (faults n) ba value) = true) :
    ba.finishCount value + 1 = faults n * 2 + 1 := by
  unfold signalsOutput handleFinish at hSignal
  simp only [bump_apply, if_true] at hSignal
  split at hSignal
  · simp [hNone] at hSignal
  · split at hSignal
    · assumption
    · simp [hNone] at hSignal

end BinaryAgreement

end Thresholds

end Jumbo

------------------------------------------------------------
-- The Weak Broadcast
------------------------------------------------------------

namespace Jumbo

namespace Thresholds

open Protocol

section WeakBroadcast

open ReliableBroadcast (Bytes threshold increment_apply)
open WeakBroadcast

variable (n : Nat) (height : Int)

/- A message of this height with a given hash. -/
def isContent (content : Bytes) (m : WRBCMsg n) : Bool :=
  m.round = height && m.content = content

/- A follower's `handle_echo` at `2f + 1`. -/
def weakEcho (value : Bytes) : Counter n :=
  .ofHandler HandleEcho.new (·.returned)
    (fun _ => true)
    (fun g m => (g.read height m).1)
    (fun g m => (g.read height m).2 = some value)
    (isContent n height value) (·.id)
    (threshold n * 2 + 1)

/- A follower's `handle_ready`. -/
def weakReady
    (fired : ReadyFired → Bool) (quota : Nat)
    (value : Bytes) : Counter n :=
  .ofHandler HandleReady.new (·.returned)
    (fun _ => true)
    (fun g m => (g.read height m).1)
    (fun g m =>
      m.content = value && fired (g.read height m).2)
    (isContent n height value) (·.id) quota

/- The broadcaster's `handle_echo` at `2f`. -/
def weakLeaderEcho (myhash : Bytes) : Counter n :=
  .ofHandler LeaderEcho.new (·.returned)
    (fun _ => true)
    (fun g m => (g.read height myhash m).1)
    (fun g m => (g.read height myhash m).2)
    (isContent n height myhash) (·.id)
    (threshold n * 2)

/- The broadcaster's `handle_ready`. -/
def weakLeaderReady
    (fired : ReadyFired → Bool) (quota : Nat)
    (myhash : Bytes) : Counter n :=
  .ofHandler LeaderReady.new (·.returned)
    (fun _ => true)
    (fun g m => (g.read height myhash m).1)
    (fun g m => fired (g.read height myhash m).2)
    (isContent n height myhash) (·.id) quota

variable {n height}

/- The follower counts the ECHO messages for a hash. -/
theorem weakEcho_lawful (value : Bytes) :
    (weakEcho n height value).Lawful
      (fun g => HandleEcho.echomap g value)
      HandleEcho.returned := by
  apply Counter.lawful_ofHandler
      (fun g : HandleEcho n => g.echomap value) rfl
  · intro g m _ _
    by_cases hRound : m.round = height <;>
      simp [HandleEcho.read, isContent, hRound,
        increment_apply]
  · intro g m _ _ hSignal
    by_cases hRound : m.round = height
    · simp only [HandleEcho.read, hRound, if_true,
        decide_eq_true_eq, Option.ite_none_right_eq_some,
        Option.some.injEq, Bool.and_eq_true] at hSignal ⊢
      rcases hSignal with ⟨⟨_, hQuota⟩, hContent⟩
      rw [hContent] at hQuota ⊢
      exact hQuota
    · simp [HandleEcho.read, hRound] at hSignal

/- The follower counts the READY messages for a hash. -/
theorem weakReady_lawful
    (value : Bytes) {fired : ReadyFired → Bool}
    {quota : Nat}
    (hNone : fired ⟨false, false⟩ = false)
    (hFired :
      ∀ (g : HandleReady n) (m : WRBCMsg n),
        m.round = height → m.content = value →
          fired (g.read height m).2 = true →
            (g.read height m).1.readymap value = quota) :
    (weakReady n height fired quota value).Lawful
      (fun g => HandleReady.readymap g value)
      HandleReady.returned := by
  apply Counter.lawful_ofHandler
      (fun g : HandleReady n => g.readymap value) rfl
  · intro g m _ _
    by_cases hRound : m.round = height
    · simp [HandleReady.read, isContent, hRound,
        increment_apply]
    · by_cases hLater : height < m.round <;>
        simp [HandleReady.read, isContent, hRound, hLater]
  · intro g m _ _ hSignal
    simp only [Bool.and_eq_true,
      decide_eq_true_eq] at hSignal
    rcases hSignal with ⟨hContent, hSignal⟩
    by_cases hRound : m.round = height
    · exact hFired g m hRound hContent hSignal
    · by_cases hLater : height < m.round <;>
        simp [HandleReady.read, hRound, hLater,
          hNone] at hSignal

/- The leader counts the ECHO messages for its hash. -/
theorem weakLeaderEcho_lawful (myhash : Bytes) :
    (weakLeaderEcho n height myhash).Lawful
      LeaderEcho.echocount LeaderEcho.returned := by
  apply Counter.lawful_ofHandler LeaderEcho.echocount rfl
  · intro g m _ _
    by_cases hRound : m.round = height
    · by_cases hContent : m.content = myhash <;>
        simp [LeaderEcho.read, isContent, hRound, hContent]
    · by_cases hLater : height < m.round <;>
        simp [LeaderEcho.read, isContent, hRound, hLater]
  · intro g m _ _ hSignal
    by_cases hRound : m.round = height
    · by_cases hContent : m.content = myhash
      · simpa [LeaderEcho.read, hRound, hContent] using
          hSignal
      · simp [LeaderEcho.read, hRound, hContent] at hSignal
    · by_cases hLater : height < m.round <;>
        simp [LeaderEcho.read, hRound, hLater] at hSignal

/- The leader counts the READY messages for its hash. -/
theorem weakLeaderReady_lawful
    (myhash : Bytes) {fired : ReadyFired → Bool}
    {quota : Nat}
    (hNone : fired ⟨false, false⟩ = false)
    (hFired :
      ∀ (g : LeaderReady n) (m : WRBCMsg n),
        m.round = height → m.content = myhash →
          fired (g.read height myhash m).2 = true →
            (g.read height myhash m).1.readycount =
              quota) :
    (weakLeaderReady n height fired quota myhash).Lawful
      LeaderReady.readycount LeaderReady.returned := by
  apply Counter.lawful_ofHandler LeaderReady.readycount rfl
  · intro g m _ _
    by_cases hRound : m.round = height
    · by_cases hContent : m.content = myhash <;>
        simp [LeaderReady.read, isContent, hRound, hContent]
    · by_cases hLater : height < m.round <;>
        simp [LeaderReady.read, isContent, hRound, hLater]
  · intro g m _ _ hSignal
    by_cases hRound : m.round = height
    · by_cases hContent : m.content = myhash
      · exact hFired g m hRound hContent hSignal
      · simp [LeaderReady.read, hRound, hContent,
          hNone] at hSignal
    · by_cases hLater : height < m.round <;>
        simp [LeaderReady.read, hRound, hLater,
          hNone] at hSignal

end WeakBroadcast

end Thresholds

end Jumbo

------------------------------------------------------------
-- All Counters
------------------------------------------------------------

namespace Jumbo

namespace Thresholds

open Protocol

open ReliableBroadcast (Bytes threshold)
open BinaryAgreement (faults)

/- The places where a threshold is looked at. -/
inductive Site where
| followerEcho (round : Int) (value : Bytes)
| followerReadyRelay (round : Int) (value : Bytes)
| followerReady (round : Int) (value : Bytes)
| followerFinish (round : Int) (value : Bytes)
| leaderEcho (round : Int) (input : Bytes)
| leaderReadyRelay (round : Int) (input : Bytes)
| leaderReady (round : Int) (input : Bytes)
| leaderFinish (round : Int) (input : Bytes)
| valRelay (loop : Nat) (value : Bool)
| val (loop : Nat) (value : Bool)
| aux (loop : Nat) (value : Bool)
| auxMix (loop : Nat)
| conf (loop : Nat) (value : Bool)
| confMix (loop : Nat)
| finishRelay (value : Bool)
| finish (value : Bool)
| weakEcho (height : Int) (value : Bytes)
| weakReadyRelay (height : Int) (value : Bytes)
| weakReady (height : Int) (value : Bytes)
| weakLeaderEcho (height : Int) (myhash : Bytes)
| weakLeaderReadyRelay (height : Int) (myhash : Bytes)
| weakLeaderReady (height : Int) (myhash : Bytes)

/- The counter behind each site. -/
def Site.counter (n : Nat) : Site → Counter n
| .followerEcho round value =>
    Thresholds.followerEcho n round value
| .followerReadyRelay round value =>
    Thresholds.followerReady n round (·.relay)
      (threshold n + 1) value
| .followerReady round value =>
    Thresholds.followerReady n round (·.deliver)
      (threshold n * 2 + 1) value
| .followerFinish round value =>
    Thresholds.followerFinish n round value
| .leaderEcho round input =>
    Thresholds.leaderEcho n round input
| .leaderReadyRelay round input =>
    Thresholds.leaderReady n round (·.relay)
      (threshold n + 1) input
| .leaderReady round input =>
    Thresholds.leaderReady n round (·.deliver)
      (threshold n * 2) input
| .leaderFinish round input =>
    Thresholds.leaderFinish n round input
| .valRelay loop value =>
    Thresholds.val n loop signalsVal (faults n + 1) value
| .val loop value =>
    Thresholds.val n loop (signalsValue value)
      (faults n * 2 + 1) value
| .aux loop value => Thresholds.aux n loop value
| .auxMix loop => Thresholds.auxMix n loop
| .conf loop value => Thresholds.conf n loop value
| .confMix loop => Thresholds.confMix n loop
| .finishRelay value =>
    Thresholds.finish n signalsFinish (faults n + 1) value
| .finish value =>
    Thresholds.finish n signalsOutput (faults n * 2 + 1)
      value
| .weakEcho height value =>
    Thresholds.weakEcho n height value
| .weakReadyRelay height value =>
    Thresholds.weakReady n height (·.relay)
      (threshold n + 1) value
| .weakReady height value =>
    Thresholds.weakReady n height (·.output)
      (threshold n * 2 + 1) value
| .weakLeaderEcho height myhash =>
    Thresholds.weakLeaderEcho n height myhash
| .weakLeaderReadyRelay height myhash =>
    Thresholds.weakLeaderReady n height (·.relay)
      (threshold n + 1) myhash
| .weakLeaderReady height myhash =>
    Thresholds.weakLeaderReady n height (·.output)
      (threshold n * 2) myhash

/- Every site counts as its counter says. -/
theorem Site.lawful (n : Nat) (site : Site) :
    ∃ count returned,
      (site.counter n).Lawful count returned := by
  cases site with
  | followerEcho round value =>
      exact ⟨_, _, followerEcho_lawful value⟩
  | followerReadyRelay round value =>
      refine ⟨_, _, followerReady_lawful value ?_⟩
      intro g hFired
      simpa [ReliableBroadcast.HandleReady.read] using hFired
  | followerReady round value =>
      refine ⟨_, _, followerReady_lawful value ?_⟩
      intro g hFired
      simpa [ReliableBroadcast.HandleReady.read] using hFired
  | followerFinish round value =>
      exact ⟨_, _, followerFinish_lawful value⟩
  | leaderEcho round input =>
      exact ⟨_, _, leaderEcho_lawful input⟩
  | leaderReadyRelay round input =>
      refine ⟨_, _, leaderReady_lawful input ?_⟩
      intro s root hFired
      unfold ReliableBroadcast.leaderHandleReady at *
      split at hFired <;> simp_all
  | leaderReady round input =>
      refine ⟨_, _, leaderReady_lawful input ?_⟩
      intro s root hFired
      unfold ReliableBroadcast.leaderHandleReady at *
      split at hFired <;> simp_all
  | leaderFinish round input =>
      exact ⟨_, _, leaderFinish_lawful input⟩
  | valRelay loop value =>
      exact ⟨_, _, val_lawful value
        fun info => quota_of_signalsVal info value⟩
  | val loop value =>
      exact ⟨_, _, val_lawful value
        fun info => quota_of_signalsValue info value⟩
  | aux loop value => exact ⟨_, _, aux_lawful value⟩
  | auxMix loop => exact ⟨_, _, auxMix_lawful⟩
  | conf loop value => exact ⟨_, _, conf_lawful value⟩
  | confMix loop => exact ⟨_, _, confMix_lawful⟩
  | finishRelay value =>
      exact ⟨_, _, finish_lawful value
        fun ba _ => quota_of_signalsFinish ba value⟩
  | finish value =>
      exact ⟨_, _, finish_lawful value
        fun ba => quota_of_signalsOutput ba value⟩
  | weakEcho height value =>
      exact ⟨_, _, weakEcho_lawful value⟩
  | weakReadyRelay height value =>
      refine ⟨_, _, weakReady_lawful value rfl ?_⟩
      intro g m hRound hContent hFired
      simpa [WeakBroadcast.HandleReady.read, hRound,
        hContent] using hFired
  | weakReady height value =>
      refine ⟨_, _, weakReady_lawful value rfl ?_⟩
      intro g m hRound hContent hFired
      simpa [WeakBroadcast.HandleReady.read, hRound,
        hContent] using hFired
  | weakLeaderEcho height myhash =>
      exact ⟨_, _, weakLeaderEcho_lawful myhash⟩
  | weakLeaderReadyRelay height myhash =>
      refine ⟨_, _, weakLeaderReady_lawful myhash rfl ?_⟩
      intro g m hRound hContent hFired
      simpa [WeakBroadcast.LeaderReady.read, hRound,
        hContent] using hFired
  | weakLeaderReady height myhash =>
      refine ⟨_, _, weakLeaderReady_lawful myhash rfl ?_⟩
      intro g m hRound hContent hFired
      simpa [WeakBroadcast.LeaderReady.read, hRound,
        hContent] using hFired

/-
  Whenever a counter fires, its quota of distinct parties
  has sent what it counts if and only if no party has been
  counted twice.
-/
theorem Site.quota_distinct_iff
    (n : Nat) (site : Site)
    (ms : List (site.counter n).M)
    (m : (site.counter n).M)
    (hFires :
      (site.counter n).fires
        ((site.counter n).run ms) m = true) :
    (site.counter n).quota ≤
        (site.counter n).distinct (ms ++ [m]) ↔
      ((site.counter n).senders (ms ++ [m])).Nodup := by
  rcases site.lawful n with ⟨count, returned, hLawful⟩
  exact hLawful.fires_iff ms m hFires

/- Three ECHO messages of party 0 for one value. -/
def repeatedEcho : ReliableBroadcast.RBCMsg 4 :=
  ⟨0, 0, .echo, [1]⟩

/- One sender three times is not a quota of senders. -/
theorem quota_distinct_iff_repeatedEcho :
    (Site.counter 4 (.followerEcho 0 [1])).distinct
        [repeatedEcho, repeatedEcho, repeatedEcho] <
      (Site.counter 4 (.followerEcho 0 [1])).quota := by
  have hIff :=
    Site.quota_distinct_iff 4 (.followerEcho 0 [1])
      [repeatedEcho, repeatedEcho] repeatedEcho
      (by decide)
  apply Nat.lt_of_not_le
  intro hQuota
  exact absurd (hIff.mp hQuota) (by decide)

/- No matter how often it is repeated, it is counted. -/
theorem countsSenders_repeatedEcho :
    ¬ ∀ (n : Nat) (site : Site),
      (site.counter n).CountsSenders := by
  intro hAll
  have hQuota :=
    hAll 4 (.followerEcho 0 [1])
      [repeatedEcho, repeatedEcho] repeatedEcho
      (by decide)
  exact absurd hQuota (by decide)

end Thresholds

end Jumbo
