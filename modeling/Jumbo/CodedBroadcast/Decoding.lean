import Jumbo.Lib.Gathering
import Jumbo.DumboMVBA.RoundTrip
import Jumbo.CodedBroadcast.Basic

/-
  What the erasure decoder is called on.

  The reconstruction of the agreement and the ECHO handler of
  the coded broadcast both count the messages whose path
  verifies, keep the shards by sender, and call the decoder
  when the count reaches the number of data shards. A second
  message of a sender is counted, too, and a shard can have
  any length.

  Main declarations:
    * `Decodable` and `Decodes`
    * `decoderInput` of the two handlers
    * `Proper`
    * `decoder_input_iff`
-/

------------------------------------------------------------
-- Decodable Input
------------------------------------------------------------

namespace Jumbo

namespace CodedBroadcast

open Crypto (Bytes)
open Protocol

/-
  At least `k` shards are there, all of one length; one that
  is empty is missing.
-/
def Decodable (k : Nat) (shards : List Bytes) : Prop :=
  k ≤ (shards.filter (· ≠ [])).length ∧
    ∀ shard ∈ shards, ∀ other ∈ shards,
      shard ≠ [] → other ≠ [] →
        shard.length = other.length

instance (k : Nat) (shards : List Bytes) :
    Decidable (Decodable k shards) :=
  inferInstanceAs (Decidable (_ ∧ _))

/-
  A decoder with `k` data shards among `n`. From just `k`
  shards the others are filled in and nothing is left to
  disagree; on what is not decodable there is an error.
-/
structure Decodes
    (recover : List Bytes → Option (List Bytes))
    (k n : Nat) : Prop where
  some :
    ∀ shards, shards.length = n → Decodable k shards →
      (shards.filter (· ≠ [])).length = k →
        (recover shards).isSome
  decodable :
    ∀ shards, shards.length = n → (recover shards).isSome →
      Decodable k shards

/- Different senders, and shards of one length, not empty. -/
structure Proper {n : Nat} (entries : List (Fin n × Bytes)) :
    Prop where
  senders : (entries.map Prod.fst).Nodup
  some : ∀ entry ∈ entries, entry.2 ≠ []
  lengths :
    ∀ entry ∈ entries, ∀ other ∈ entries,
      entry.2.length = other.2.length

section Decodable

variable {n k : Nat} {entries : List (Fin n × Bytes)}

/- The shards that are there are the filled slots. -/
theorem length_filter_map
    (slots : Fin n → Bytes) :
    (((List.finRange n).map slots).filter (· ≠ [])).length =
      (Gathering.filled [] slots).card := by
  rw [List.filter_map, List.length_map]
  have hFilled :
      Gathering.filled [] slots =
        ((List.finRange n).filter
          ((fun shard => decide (shard ≠ [])) ∘ slots)).toFinset := by
    ext i
    rw [Gathering.mem_filled, List.mem_toFinset,
      List.mem_filter]
    simp
  rw [hFilled, List.toFinset_card_of_nodup]
  exact (List.nodup_finRange n).filter _

/- When the count is reached, by whom and with what. -/
theorem decodable_gather_iff
    (hLength : entries.length = k) :
    Decodable k
        ((List.finRange n).map
          (Gathering.gather [] entries)) ↔
      Proper entries := by
  unfold Decodable
  rw [length_filter_map, ← hLength,
    Gathering.length_le_filled_iff]
  constructor
  · rintro ⟨⟨hNodup, hSome⟩, hLengths⟩
    refine ⟨hNodup, hSome, ?_⟩
    intro entry hEntry other hOther
    have hAt := fun (one : Fin n × Bytes) (h : one ∈ entries) =>
      @Gathering.gather_of_mem _ _ _ [] entries hNodup one h
    have hSlot :
        ∀ one ∈ entries,
          one.2 ∈ (List.finRange n).map
            (Gathering.gather [] entries) := by
      intro one hOne
      rw [← hAt one hOne]
      exact List.mem_map_of_mem (List.mem_finRange _)
    exact
      hLengths _ (hSlot entry hEntry) _ (hSlot other hOther)
        (hSome entry hEntry) (hSome other hOther)
  · intro hProper
    refine ⟨⟨hProper.senders, hProper.some⟩, ?_⟩
    intro shard hShard other hOther hFirst hSecond
    rcases List.mem_map.mp hShard with ⟨i, _, rfl⟩
    rcases List.mem_map.mp hOther with ⟨j, _, rfl⟩
    exact
      hProper.lengths _ (Gathering.mem_of_gather_ne hFirst) _
        (Gathering.mem_of_gather_ne hSecond)

/- The decoder's answer when the count is reached. -/
theorem recover_gather_iff
    {recover : List Bytes → Option (List Bytes)}
    (hDecodes : Decodes recover k n)
    (hLength : entries.length = k) :
    Decodable k
          ((List.finRange n).map
            (Gathering.gather [] entries)) ∧
        (recover
          ((List.finRange n).map
            (Gathering.gather [] entries))).isSome ↔
      Proper entries := by
  rw [← decodable_gather_iff hLength]
  constructor
  · exact fun h => h.1
  · intro hDecodable
    have hAll :
        ((List.finRange n).map
          (Gathering.gather [] entries)).length = n := by
      rw [List.length_map, List.length_finRange]
    refine ⟨hDecodable, hDecodes.some _ hAll hDecodable ?_⟩
    apply Nat.le_antisymm _ hDecodable.1
    rw [length_filter_map, ← hLength]
    exact Gathering.card_filled_le

end Decodable

end CodedBroadcast

end Jumbo

------------------------------------------------------------
-- The Agreement's Reconstruction
------------------------------------------------------------

namespace Jumbo

namespace DumboMVBA

open Crypto (Bytes)
open Protocol

variable {n : Nat}

/- A message that is counted: its sender and its shard. -/
def counted
    (sha : Bytes → Bytes) (root : Bytes)
    (id : Int32) (values : List Bytes) :
    Option (Fin n × Bytes) :=
  if verifyPath sha root values (id.toInt - 1) then
    (Crypto.key n id).map fun i => (i, values.headD [])
  else none

/- What `handleShard` gives to the decoder, if it calls it. -/
def decoderInput
    (cfg : Config n) (dm : Dumbomvba n)
    (msg : DumbomvbaMsg) : Option (List Bytes) :=
  match dm.decided, dm.returned with
  | some d, none =>
      (counted cfg.sha d.root msg.id msg.values).bind
        fun entry =>
          if threshold n ≤ dm.count + 1 then
            some
              ((List.finRange n).map
                (Function.update dm.shards entry.1 entry.2))
          else none
  | _, _ => none

/- A party that has just begun to reconstruct. -/
structure Begins (dm : Dumbomvba n) (d : Decision) : Prop where
  decided : dm.decided = some d
  returned : dm.returned = none
  count : dm.count = 0
  shards : dm.shards = fun _ => []

section Gather

variable {cfg : Config n} {dm dm' : Dumbomvba n}
variable {d : Decision} {msgs : List DumbomvbaMsg}
variable {msg : DumbomvbaMsg}

/- The shards are those of the messages counted so far. -/
structure Gathers
    (cfg : Config n) (dm : Dumbomvba n) (d : Decision)
    (msgs : List DumbomvbaMsg) : Prop where
  decided : dm.decided = some d
  gathered :
    dm.returned = none →
      dm.count < threshold n ∧ dm.count =
          (msgs.filterMap fun msg =>
            @counted n cfg.sha d.root msg.id msg.values).length ∧
        dm.shards =
          Gathering.gather []
            (msgs.filterMap fun msg =>
              counted cfg.sha d.root msg.id msg.values)

/- At the start no shard is there. -/
theorem Begins.gathers
    (hBegins : Begins dm d) (hSome : 0 < threshold n) :
    Gathers cfg dm d [] := by
  refine ⟨hBegins.decided, fun _ => ⟨?_, ?_, hBegins.shards⟩⟩
  · rw [hBegins.count]
    exact hSome
  · exact hBegins.count

/- Reading a message stores what was counted. -/
theorem Gathers.handleShard
    (hGathers : Gathers cfg dm d msgs)
    (hHandle : DumboMVBA.handleShard cfg dm msg = some dm') :
    Gathers cfg dm' d (msgs ++ [msg]) := by
  unfold DumboMVBA.handleShard at hHandle
  rw [hGathers.decided] at hHandle
  cases hReturned : dm.returned with
  | some result =>
      rw [hReturned] at hHandle
      cases hHandle
  | none =>
      rcases hGathers.gathered hReturned with
        ⟨hLess, hCount, hShards⟩
      rw [hReturned] at hHandle
      dsimp only at hHandle
      split at hHandle
      · rename_i hVerify
        rcases Option.bind_eq_some_iff.mp hHandle with
          ⟨i, hKey, hHandle⟩
        split at hHandle
        · -- the decoder is called and the party returns
          unfold finish at hHandle
          rcases Option.bind_eq_some_iff.mp hHandle with
            ⟨_, _, hHandle⟩
          rcases Option.bind_eq_some_iff.mp hHandle with
            ⟨_, _, hHandle⟩
          rcases Option.bind_eq_some_iff.mp hHandle with
            ⟨_, _, hHandle⟩
          cases hHandle
          exact ⟨rfl, nofun⟩
        · rename_i hMore
          cases hHandle
          refine ⟨rfl, fun _ => ⟨Nat.lt_of_not_le hMore, ?_⟩⟩
          have hCounted :
              @counted n cfg.sha d.root msg.id msg.values =
                some (i, msg.values.headD []) := by
            unfold counted
            rw [if_pos hVerify, hKey]
            rfl
          rw [List.filterMap_append]
          simp only [List.filterMap_cons, hCounted,
            List.filterMap_nil]
          rw [List.length_append, Gathering.gather_append,
            ← hCount, ← hShards]
          exact ⟨rfl, rfl⟩
      · rename_i hVerify
        cases hHandle
        refine ⟨hGathers.decided, fun _ => ⟨hLess, ?_⟩⟩
        have hCounted :
            @counted n cfg.sha d.root msg.id msg.values =
              none := by
          unfold counted
          rw [if_neg hVerify]
        rw [List.filterMap_append]
        simp only [List.filterMap_cons, hCounted,
          List.filterMap_nil, List.append_nil]
        exact ⟨hCount, hShards⟩

/- So it is after any number of messages. -/
theorem Gathers.run
    {more : List DumbomvbaMsg}
    (hGathers : Gathers cfg dm d msgs)
    (hRun :
      more.foldlM (DumboMVBA.handleShard cfg) dm = some dm') :
    Gathers cfg dm' d (msgs ++ more) := by
  induction more generalizing dm msgs with
  | nil =>
      cases hRun
      rw [List.append_nil]
      exact hGathers
  | cons msg more ih =>
      rw [List.foldlM_cons] at hRun
      rcases Option.bind_eq_some_iff.mp hRun with
        ⟨mid, hHandle, hRun⟩
      have hEnd := ih (hGathers.handleShard hHandle) hRun
      rw [List.append_assoc] at hEnd
      exact hEnd

/- At the call the count has just been reached. -/
theorem Gathers.decoderInput
    {shards : List Bytes}
    (hGathers : Gathers cfg dm d msgs)
    (hInput : DumboMVBA.decoderInput cfg dm msg = some shards) :
    let entries :=
      (msgs ++ [msg]).filterMap fun msg =>
        @counted n cfg.sha d.root msg.id msg.values
    entries.length = threshold n ∧
      shards =
        (List.finRange n).map (Gathering.gather [] entries) := by
  unfold DumboMVBA.decoderInput at hInput
  rw [hGathers.decided] at hInput
  cases hReturned : dm.returned with
  | some result =>
      rw [hReturned] at hInput
      cases hInput
  | none =>
      rcases hGathers.gathered hReturned with
        ⟨hLess, hCount, hShards⟩
      rw [hReturned] at hInput
      dsimp only at hInput
      rcases Option.bind_eq_some_iff.mp hInput with
        ⟨entry, hCounted, hInput⟩
      rcases Option.ite_none_right_eq_some.mp hInput with
        ⟨hEnough, hEq⟩
      cases hEq
      intro entries
      have hEntries :
          entries =
            (msgs.filterMap fun msg =>
              counted cfg.sha d.root msg.id msg.values) ++
              [entry] := by
        change (msgs ++ [msg]).filterMap _ = _
        rw [List.filterMap_append]
        simp only [List.filterMap_cons, hCounted,
          List.filterMap_nil]
      rw [hEntries, List.length_append, Gathering.gather_append,
        ← hCount, ← hShards]
      refine ⟨?_, rfl⟩
      rw [List.length_singleton]
      omega

end Gather

end DumboMVBA

end Jumbo

------------------------------------------------------------
-- The Broadcast's ECHO Handler
------------------------------------------------------------

namespace Jumbo

namespace CodedBroadcast

open Crypto (Bytes)
open ReliableBroadcast (threshold)
open DumboMVBA (verifyPath counted)
open Protocol

variable {n : Nat}

/- An ECHO that is counted for a root. -/
def echoed
    (cfg : Config n) (height : Int) (root : Bytes)
    (msg : RBCMsg) : Option (Fin n × Bytes) :=
  if msg.round = height ∧ msg.values.getLast? = some root then
    counted cfg.sha root msg.id msg.values
  else none

/- What reading an ECHO gives to the decoder. -/
def decoderInput
    (cfg : Config n) (height : Int) (g : HandleEcho n)
    (msg : RBCMsg) : Option (List Bytes) :=
  msg.values.getLast?.bind fun root =>
    (echoed cfg height root msg).bind fun entry =>
      let stored :=
        EchoBuf.store (g.echomap root) entry.1 entry.2
      if stored.count = threshold n + 1 then some stored.list
      else none

/- Until the decoder is called, the shards are as sent. -/
def EchoGathers
    (cfg : Config n) (height : Int) (g : HandleEcho n)
    (msgs : List RBCMsg) : Prop :=
  ∀ root,
    let entries := msgs.filterMap (echoed cfg height root)
    match g.echomap root with
    | none => entries = []
    | some buf =>
        buf.count = entries.length ∧
          (buf.count ≤ threshold n →
            buf.shards = Gathering.gather [] entries)

section Echo

variable {cfg : Config n} {height : Int}
variable {g g' : HandleEcho n} {msgs : List RBCMsg}
variable {msg : RBCMsg} {root : Bytes}

/- A shard is stored next to those gathered before. -/
theorem EchoGathers.store
    {entry : Fin n × Bytes}
    (hGathers : EchoGathers cfg height g msgs)
    (hEchoed : echoed cfg height root msg = some entry) :
    let stored :=
      EchoBuf.store (g.echomap root) entry.1 entry.2
    let entries :=
      (msgs ++ [msg]).filterMap (echoed cfg height root)
    stored.count = entries.length ∧
      (stored.count ≤ threshold n + 1 →
        stored.shards = Gathering.gather [] entries) := by
  intro stored entries
  have hEntries :
      entries =
        msgs.filterMap (echoed cfg height root) ++ [entry] := by
    change (msgs ++ [msg]).filterMap _ = _
    rw [List.filterMap_append]
    simp only [List.filterMap_cons, hEchoed,
      List.filterMap_nil]
  have hRoot := hGathers root
  rw [hEntries, List.length_append, Gathering.gather_append]
  cases hBuf : g.echomap root with
  | none =>
      rw [hBuf] at hRoot
      dsimp only at hRoot
      have hStored :
          stored =
            EchoBuf.store none entry.1 entry.2 :=
        congrArg (EchoBuf.store · entry.1 entry.2) hBuf
      rw [hStored, hRoot]
      exact ⟨rfl, fun _ => rfl⟩
  | some buf =>
      rw [hBuf] at hRoot
      dsimp only at hRoot
      have hStored :
          stored =
            EchoBuf.store (some buf) entry.1 entry.2 :=
        congrArg (EchoBuf.store · entry.1 entry.2) hBuf
      rw [hStored, ← hRoot.1]
      refine ⟨rfl, fun hLe => ?_⟩
      have hShards := hRoot.2 (Nat.le_of_succ_le_succ hLe)
      rw [← hShards]
      rfl

/- What reading an ECHO of the height comes to. -/
theorem readOwn_eq_some
    (hRead : g.readOwn cfg msg = some g') :
    ∃ root entry buf,
      msg.values.getLast? = some root ∧
        counted cfg.sha root msg.id msg.values = some entry ∧
          g'.echomap =
              Function.update g.echomap root (some buf) ∧
            buf.count =
                (EchoBuf.store (g.echomap root) entry.1
                  entry.2).count ∧
              (buf.count ≤ threshold n →
                buf.shards =
                  (EchoBuf.store (g.echomap root) entry.1
                    entry.2).shards) := by
  unfold HandleEcho.readOwn at hRead
  split at hRead
  · cases hRead
  · rename_i root hLast
    split at hRead
    · rename_i hVerify
      rcases Option.bind_eq_some_iff.mp hRead with
        ⟨i, hKey, hRead⟩
      rcases Option.bind_eq_some_iff.mp hRead with
        ⟨⟨buf, candidates⟩, hDecode, hRead⟩
      rcases Option.bind_eq_some_iff.mp hRead with
        ⟨signalled, _, hRead⟩
      cases hRead
      refine
        ⟨root, (i, msg.values.headD []), buf, hLast, ?_, rfl, ?_⟩
      · unfold counted
        rw [if_pos hVerify, hKey]
        rfl
      · unfold EchoBuf.decode at hDecode
        split at hDecode
        · rename_i hCount
          rcases Option.bind_eq_some_iff.mp hDecode with
            ⟨shards, _, hDecode⟩
          rcases Option.bind_eq_some_iff.mp hDecode with
            ⟨output, _, hDecode⟩
          rcases Option.bind_eq_some_iff.mp hDecode with
            ⟨computed, _, hDecode⟩
          rcases Option.ite_none_right_eq_some.mp hDecode with
            ⟨_, hEq⟩
          cases hEq
          refine ⟨rfl, fun hLe => ?_⟩
          dsimp only at hLe
          omega
        · cases hDecode
          exact ⟨rfl, fun _ => rfl⟩
    · cases hRead

/- Reading an ECHO stores what was counted. -/
theorem EchoGathers.read
    (hGathers : EchoGathers cfg height g msgs)
    (hRead : g.read cfg height msg = some g') :
    EchoGathers cfg height g' (msgs ++ [msg]) := by
  unfold HandleEcho.read at hRead
  split at hRead
  · rename_i hRound
    rcases readOwn_eq_some hRead with
      ⟨root, entry, buf, hLast, hCounted, hMap, hCount,
        hShards⟩
    have hEchoed : echoed cfg height root msg = some entry := by
      unfold echoed
      rw [if_pos ⟨hRound, hLast⟩]
      exact hCounted
    intro other
    rw [hMap]
    by_cases hOther : other = root
    · subst hOther
      rcases hGathers.store hEchoed with ⟨hLength, hGather⟩
      rw [Function.update_self]
      dsimp only
      refine ⟨hCount.trans hLength, fun hLe => ?_⟩
      rw [hShards hLe]
      apply hGather
      omega
    · have hNone : echoed cfg height other msg = none := by
        unfold echoed
        apply if_neg
        rintro ⟨_, hSame⟩
        rw [hLast] at hSame
        exact hOther (Option.some.inj hSame).symm
      rw [Function.update_of_ne hOther, List.filterMap_append]
      simp only [List.filterMap_cons, hNone,
        List.filterMap_nil, List.append_nil]
      exact hGathers other
  · rename_i hRound
    cases hRead
    intro root
    have hNone : echoed cfg height root msg = none := by
      unfold echoed
      apply if_neg
      exact fun h => hRound h.1
    rw [List.filterMap_append]
    simp only [List.filterMap_cons, hNone, List.filterMap_nil,
      List.append_nil]
    exact hGathers root

/- So it is after any number of ECHO messages. -/
theorem echoGathers
    (hRun :
      msgs.foldlM (HandleEcho.read cfg height) HandleEcho.new =
        some g) :
    EchoGathers cfg height g msgs := by
  induction msgs using List.reverseRecOn generalizing g with
  | nil =>
      cases hRun
      exact fun _ => rfl
  | append_singleton msgs msg ih =>
      rw [List.foldlM_append] at hRun
      rcases Option.bind_eq_some_iff.mp hRun with
        ⟨before, hBefore, hRead⟩
      rcases Option.bind_eq_some_iff.mp hRead with
        ⟨after, hRead, hEq⟩
      cases hEq
      exact (ih hBefore).read hRead

/- An error of the decoder ends the process. -/
theorem read_eq_none
    {shards : List Bytes}
    (hInput : decoderInput cfg height g msg = some shards)
    (hError : cfg.recover shards = none) :
    g.read cfg height msg = none := by
  rcases Option.bind_eq_some_iff.mp hInput with
    ⟨root, hLast, hInput⟩
  rcases Option.bind_eq_some_iff.mp hInput with
    ⟨entry, hEchoed, hInput⟩
  rcases Option.ite_none_right_eq_some.mp hInput with
    ⟨hCount, hEq⟩
  rcases Option.ite_none_right_eq_some.mp hEchoed with
    ⟨⟨hRound, _⟩, hCounted⟩
  rcases Option.ite_none_right_eq_some.mp hCounted with
    ⟨hVerify, hKey⟩
  rcases Option.map_eq_some_iff.mp hKey with ⟨i, hFound, rfl⟩
  cases hEq
  unfold HandleEcho.read
  rw [if_pos hRound]
  unfold HandleEcho.readOwn
  rw [hLast]
  dsimp only
  rw [if_pos hVerify, hFound]
  unfold EchoBuf.decode
  simp only [Option.bind_eq_bind, Option.bind_some]
  rw [if_pos hCount, hError]
  rfl

end Echo

------------------------------------------------------------
-- Both Callers
------------------------------------------------------------

/- What is said of one call of the decoder. -/
structure Sane
    (recover : List Bytes → Option (List Bytes)) (k : Nat)
    (shards : List Bytes) : Prop where
  decodable : Decodable k shards
  noError : (recover shards).isSome

/-
  In both handlers the decoder is called on decodable input,
  and has no error, exactly when the messages that have been
  counted come from different senders and their shards have
  one length that is not zero.
-/
theorem decoder_input_iff :
    (∀ (cfg : DumboMVBA.Config n) (d : DumboMVBA.Decision)
        (dm dm' : DumboMVBA.Dumbomvba n)
        (msgs : List DumboMVBA.DumbomvbaMsg)
        (msg : DumboMVBA.DumbomvbaMsg) (shards : List Bytes),
      Decodes cfg.recover (DumboMVBA.threshold n) n →
        DumboMVBA.Begins dm d →
          msgs.foldlM (DumboMVBA.handleShard cfg) dm =
              some dm' →
            DumboMVBA.decoderInput cfg dm' msg = some shards →
              (Sane cfg.recover (DumboMVBA.threshold n)
                  shards ↔
                Proper
                  ((msgs ++ [msg]).filterMap fun msg =>
                    @counted n cfg.sha d.root msg.id
                      msg.values))) ∧
    (∀ (cfg : Config n) (height : Int) (g : HandleEcho n)
        (msgs : List RBCMsg) (msg : RBCMsg) (root : Bytes)
        (shards : List Bytes),
      Decodes cfg.recover (threshold n + 1) n →
        msgs.foldlM (HandleEcho.read cfg height)
            HandleEcho.new = some g →
          msg.values.getLast? = some root →
            decoderInput cfg height g msg = some shards →
              (Sane cfg.recover (threshold n + 1) shards ↔
                Proper
                  ((msgs ++ [msg]).filterMap
                    (echoed cfg height root)))) := by
  have hSane
      {recover : List Bytes → Option (List Bytes)}
      {k : Nat} {entries : List (Fin n × Bytes)}
      (hDecodes : Decodes recover k n)
      (hLength : entries.length = k) :
      Sane recover k
          ((List.finRange n).map
            (Gathering.gather [] entries)) ↔
        Proper entries := by
    rw [← recover_gather_iff hDecodes hLength]
    exact ⟨fun h => ⟨h.1, h.2⟩, fun h => ⟨h.1, h.2⟩⟩
  constructor
  · intro cfg d dm dm' msgs msg shards hDecodes hBegins hRun
      hInput
    have hSome : 0 < DumboMVBA.threshold n := by
      by_contra hZero
      unfold DumboMVBA.threshold at hZero
      have hEmpty : n = 0 := by omega
      subst hEmpty
      -- without parties no message is counted
      unfold DumboMVBA.decoderInput at hInput
      split at hInput
      · rcases Option.bind_eq_some_iff.mp hInput with
          ⟨entry, _, _⟩
        exact entry.1.elim0
      · cases hInput
    have hGathers := (hBegins.gathers hSome).run hRun
    rw [List.nil_append] at hGathers
    rcases hGathers.decoderInput hInput with ⟨hLength, hEq⟩
    rw [hEq]
    exact hSane hDecodes hLength
  · intro cfg height g msgs msg root shards hDecodes hRun
      hLast hInput
    rcases Option.bind_eq_some_iff.mp hInput with
      ⟨same, hSame, hInput⟩
    rw [hLast] at hSame
    cases hSame
    rcases Option.bind_eq_some_iff.mp hInput with
      ⟨entry, hEchoed, hInput⟩
    rcases Option.ite_none_right_eq_some.mp hInput with
      ⟨hCount, hEq⟩
    rcases (echoGathers hRun).store hEchoed with
      ⟨hLength, hGather⟩
    cases hEq
    unfold EchoBuf.list
    rw [hGather hCount.le]
    exact hSane hDecodes (hLength.symm.trans hCount)

end CodedBroadcast

end Jumbo

------------------------------------------------------------
-- Any Two Shards of Four
------------------------------------------------------------

namespace Jumbo

namespace DumboMVBA

open Crypto (Bytes)

/- The inner two of four may change places. -/
theorem xor_swap (a b c d : UInt8) :
    (a ^^^ b) ^^^ (c ^^^ d) = (a ^^^ c) ^^^ (b ^^^ d) := by
  ac_rfl

/- Doubling respects the sum of the field. -/
theorem double_xor (x y : UInt8) :
    double (x ^^^ y) = double x ^^^ double y := by
  have hHigh :
      ∀ b, double b =
        (b <<< 1) ^^^ (if b.toNat.testBit 7 then 29 else 0) :=
    forall_byte (by decide +kernel)
  rw [hHigh, hHigh x, hHigh y, xor_swap, UInt8.shiftLeft_xor,
    UInt8.toNat_xor, Nat.testBit_xor]
  congr 1
  cases x.toNat.testBit 7 <;> cases y.toNat.testBit 7 <;> rfl

/- So does the threefold. -/
theorem triple_xor (x y : UInt8) :
    triple (x ^^^ y) = triple x ^^^ triple y := by
  unfold triple
  rw [double_xor, xor_swap]

/- Halving is the inverse of doubling. -/
theorem double_half : ∀ b, double (half b) = b :=
  forall_byte (by decide +kernel)

/- The third is the inverse of the threefold. -/
theorem triple_third : ∀ b, triple (third b) = b :=
  forall_byte (by decide +kernel)

theorem triple_double_same :
    ∀ b, triple (triple b) ^^^ double (double b) = b :=
  forall_byte (by decide +kernel)

theorem triple_double_other :
    ∀ b, triple (double b) ^^^ double (triple b) = 0 :=
  forall_byte (by decide +kernel)

/- The matrix of the parities is its own inverse. -/
theorem parities_fst (x y : UInt8) :
    triple (triple x ^^^ double y) ^^^
        double (double x ^^^ triple y) = x := by
  rw [triple_xor, double_xor, xor_swap, triple_double_same,
    triple_double_other, UInt8.xor_zero]

/- The second part of the product. -/
theorem parities_snd (x y : UInt8) :
    double (triple x ^^^ double y) ^^^
        triple (double x ^^^ triple y) = y := by
  rw [triple_xor, double_xor, xor_swap,
    UInt8.xor_comm (double (triple x)), triple_double_other,
    UInt8.xor_comm (double (double y)), triple_double_same,
    UInt8.zero_xor]

/- Two words, byte by byte from two others. -/
def combine
    (g h : UInt8 → UInt8 → UInt8) (xs ys : Bytes) :
    Bytes × Bytes :=
  (List.zipWith g xs ys, List.zipWith h xs ys)

/- The data, from two shards that are there. -/
def solve (shards : List Bytes) : Option (Bytes × Bytes) :=
  match shards with
  | [a, b, c, d] =>
      if a ≠ [] then
        if b ≠ [] then
          some (combine (fun x _ => x) (fun _ y => y) a b)
        else if c ≠ [] then
          some
            (combine (fun x _ => x)
              (fun x p => half (triple x ^^^ p)) a c)
        else
          some
            (combine (fun x _ => x)
              (fun x q => third (double x ^^^ q)) a d)
      else if b ≠ [] then
        if c ≠ [] then
          some
            (combine (fun y p => third (double y ^^^ p))
              (fun y _ => y) b c)
        else
          some
            (combine (fun y q => half (triple y ^^^ q))
              (fun y _ => y) b d)
      else
        some
          (combine (fun p q => triple p ^^^ double q)
            (fun p q => double p ^^^ triple q) c d)
  | _ => none

section ZipWith

variable {xs ys : Bytes}

/- A function of both words works byte by byte. -/
theorem zipWith_combine
    (f g h : UInt8 → UInt8 → UInt8) (xs ys : Bytes) :
    List.zipWith f (combine g h xs ys).1
        (combine g h xs ys).2 =
      List.zipWith (fun x y => f (g x y) (h x y)) xs ys := by
  unfold combine
  induction xs generalizing ys with
  | nil => rfl
  | cons x xs ih =>
      cases ys with
      | nil => rfl
      | cons y ys => exact congrArg _ (ih ys)

/- Bytes of the first word give the first word. -/
theorem zipWith_fst
    (hLength : xs.length = ys.length)
    {f : UInt8 → UInt8 → UInt8} (hByte : ∀ x y, f x y = x) :
    List.zipWith f xs ys = xs := by
  induction xs generalizing ys with
  | nil => rfl
  | cons x xs ih =>
      cases ys with
      | nil => cases hLength
      | cons y ys =>
          exact congrArg₂ List.cons (hByte x y)
            (ih (Nat.succ.inj hLength))

/- Bytes of the second word give the second. -/
theorem zipWith_snd
    (hLength : xs.length = ys.length)
    {f : UInt8 → UInt8 → UInt8} (hByte : ∀ x y, f x y = y) :
    List.zipWith f xs ys = ys := by
  rw [List.zipWith_comm]
  exact zipWith_fst hLength.symm fun y x => hByte x y

end ZipWith

end DumboMVBA

end Jumbo

------------------------------------------------------------
-- A Sender Counted Twice
------------------------------------------------------------

namespace Jumbo

namespace CodedBroadcast

open Crypto (Bytes)
open DumboMVBA (codedPath codedSha codedTree codeword combine double
  double_half half number parities_fst parities_snd solve third
  triple triple_third zipWith_combine zipWith_fst zipWith_snd)
open Protocol

/- What is dispersed: two shards of data, two of parity. -/
def fourWord : List Bytes := codeword [7] [8]

/- The word agrees with the shards that are there. -/
def Fits (shards word : List Bytes) : Prop :=
  ∀ pair ∈ shards.zip word, pair.1 = [] ∨ pair.1 = pair.2

instance (shards word : List Bytes) :
    Decidable (Fits shards word) :=
  inferInstanceAs (Decidable (∀ pair ∈ _, _))

/-
  The decoder for four parties and two data shards: it has
  an error if there are too few shards or their lengths
  differ, and the word that it fills in is verified.
-/
def fourRecover (shards : List Bytes) : Option (List Bytes) :=
  if Decodable 2 shards then
    (solve shards).bind fun data =>
      let word := codeword data.1 data.2
      if Fits shards word then some word else none
  else none

/- The decoder has no error if its word fits. -/
theorem fourRecover_isSome
    {shards : List Bytes} {data : Bytes × Bytes}
    (hDecodable : Decodable 2 shards)
    (hSolve : solve shards = some data)
    (hFits : Fits shards (codeword data.1 data.2)) :
    (fourRecover shards).isSome := by
  unfold fourRecover
  rw [if_pos hDecodable, hSolve]
  exact Option.isSome_iff_exists.mpr ⟨_, if_pos hFits⟩

/- Each shard is compared with its place in the word. -/
theorem fits_four
    {a b c d : Bytes} {data : Bytes × Bytes}
    (hA : a = [] ∨ a = data.1) (hB : b = [] ∨ b = data.2)
    (hC : c = [] ∨ c =
      List.zipWith (fun x y => triple x ^^^ double y)
        data.1 data.2)
    (hD : d = [] ∨ d =
      List.zipWith (fun x y => double x ^^^ triple y)
        data.1 data.2) :
    Fits [a, b, c, d] (codeword data.1 data.2) := by
  simpa [Fits, codeword] using ⟨hA, hB, hC, hD⟩

/-
  Two shards of one length are an answer to two equations,
  and both agree with the word.
-/
theorem solve_fits
    {a b c d : Bytes}
    (hDecodable : Decodable 2 [a, b, c, d])
    (hTwo : ([a, b, c, d].filter (· ≠ [])).length = 2) :
    ∃ data, solve [a, b, c, d] = some data ∧
      Fits [a, b, c, d] (codeword data.1 data.2) := by
  have hLengths {x y : Bytes}
      (hx : x ∈ [a, b, c, d]) (hy : y ∈ [a, b, c, d])
      (hSomeX : x ≠ []) (hSomeY : y ≠ []) :
      x.length = y.length :=
    hDecodable.2 x hx y hy hSomeX hSomeY
  by_cases hA : a = []
  · by_cases hB : b = []
    · by_cases hC : c = []
      · by_cases hD : d = [] <;>
          simp [hA, hB, hC, hD] at hTwo
      · have hD : d ≠ [] := by
          intro hD
          simp [hA, hB, hC, hD] at hTwo
        have hLength : c.length = d.length :=
          hLengths (by simp) (by simp) hC hD
        refine ⟨_, by simp [solve, hA, hB]; rfl, ?_⟩
        refine fits_four (.inl hA) (.inl hB) (.inr ?_) (.inr ?_)
        · rw [zipWith_combine, zipWith_fst hLength parities_fst]
        · rw [zipWith_combine, zipWith_snd hLength parities_snd]
    · by_cases hC : c = []
      · have hD : d ≠ [] := by
          intro hD
          simp [hA, hB, hC, hD] at hTwo
        have hLength : b.length = d.length :=
          hLengths (by simp) (by simp) hB hD
        refine ⟨_, by simp [solve, hA, hB, hC]; rfl, ?_⟩
        refine fits_four (.inl hA) (.inr ?_) (.inl hC) (.inr ?_)
        · exact (zipWith_fst hLength fun _ _ => rfl).symm
        · rw [zipWith_combine, zipWith_snd hLength fun y q => ?_]
          rw [double_half, UInt8.xor_comm, ← UInt8.xor_assoc,
            UInt8.xor_self, UInt8.zero_xor]
      · have hD : d = [] := by
          by_contra hD
          simp [hA, hB, hC, hD] at hTwo
        have hLength : b.length = c.length :=
          hLengths (by simp) (by simp) hB hC
        refine ⟨_, by simp [solve, hA, hB, hC]; rfl, ?_⟩
        refine fits_four (.inl hA) (.inr ?_) (.inr ?_) (.inl hD)
        · exact (zipWith_fst hLength fun _ _ => rfl).symm
        · rw [zipWith_combine, zipWith_snd hLength fun y p => ?_]
          rw [triple_third, UInt8.xor_comm, ← UInt8.xor_assoc,
            UInt8.xor_self, UInt8.zero_xor]
  · by_cases hB : b = []
    · by_cases hC : c = []
      · have hD : d ≠ [] := by
          intro hD
          simp [hA, hB, hC, hD] at hTwo
        have hLength : a.length = d.length :=
          hLengths (by simp) (by simp) hA hD
        refine ⟨_, by simp [solve, hA, hB, hC]; rfl, ?_⟩
        refine fits_four (.inr ?_) (.inl hB) (.inl hC) (.inr ?_)
        · exact (zipWith_fst hLength fun _ _ => rfl).symm
        · rw [zipWith_combine, zipWith_snd hLength fun x q => ?_]
          rw [triple_third, ← UInt8.xor_assoc, UInt8.xor_self,
            UInt8.zero_xor]
      · have hD : d = [] := by
          by_contra hD
          simp [hA, hB, hC, hD] at hTwo
        have hLength : a.length = c.length :=
          hLengths (by simp) (by simp) hA hC
        refine ⟨_, by simp [solve, hA, hB, hC]; rfl, ?_⟩
        refine fits_four (.inr ?_) (.inl hB) (.inr ?_) (.inl hD)
        · exact (zipWith_fst hLength fun _ _ => rfl).symm
        · rw [zipWith_combine, zipWith_snd hLength fun x p => ?_]
          rw [double_half, ← UInt8.xor_assoc, UInt8.xor_self,
            UInt8.zero_xor]
    · have hC : c = [] := by
        by_contra hC
        by_cases hD : d = [] <;>
          simp [hA, hB, hC, hD] at hTwo
      have hD : d = [] := by
        by_contra hD
        simp [hA, hB, hC, hD] at hTwo
      have hLength : a.length = b.length :=
        hLengths (by simp) (by simp) hA hB
      refine ⟨_, by simp [solve, hA, hB]; rfl, ?_⟩
      refine fits_four (.inr ?_) (.inr ?_) (.inl hC) (.inl hD)
      · exact (zipWith_fst hLength fun _ _ => rfl).symm
      · exact (zipWith_snd hLength fun _ _ => rfl).symm

/- The decoder does what its documentation says. -/
theorem fourRecover_decodes : Decodes fourRecover 2 4 where
  some := by
    intro shards hLength hDecodable hTwo
    match shards, hLength with
    | [a, b, c, d], _ =>
        rcases solve_fits hDecodable hTwo with
          ⟨data, hSolve, hFits⟩
        exact fourRecover_isSome hDecodable hSolve hFits
  decodable := by
    intro shards _ hSome
    by_contra hNot
    unfold fourRecover at hSome
    rw [if_neg hNot] at hSome
    cases hSome

/- The coded broadcast of four parties. -/
def fourConfig : Config 4 where
  sha := codedSha
  recover := fourRecover

/- The ECHO of a party in a broadcast of two bytes. -/
def fourEcho (id : Fin 4) : RBCMsg where
  id := number id
  round := 0
  msglen := 2
  values := codedPath fourWord id
  root := []

/- The root over the four shards. -/
def fourRoot : Bytes := (codedTree fourWord).2

/- Two ECHO messages of two parties can be decoded. -/
theorem decoder_input_two :
    Sane fourRecover 2 [[7], [8], [], []] := by
  have hInput :
      (HandleEcho.new.read fourConfig 0 (fourEcho 0)).any
        (fun g =>
          decoderInput fourConfig 0 g (fourEcho 1) =
            some [[7], [8], [], []]) = true := by
    decide +kernel
  rcases Option.any_eq_true _ _ |>.mp hInput with
    ⟨g, hRead, hInput⟩
  have hRun :
      [fourEcho 0].foldlM (HandleEcho.read fourConfig 0)
        HandleEcho.new = some g := by
    rw [List.foldlM_cons, hRead]
    rfl
  have hProper :
      @Proper 4
        (([fourEcho 0] ++ [fourEcho 1]).filterMap
          (echoed fourConfig 0 fourRoot)) := by
    refine ⟨by decide +kernel, by decide +kernel, ?_⟩
    decide +kernel
  exact
    (decoder_input_iff.2 fourConfig 0 g [fourEcho 0]
      (fourEcho 1) fourRoot _ fourRecover_decodes hRun
      (by decide +kernel) (of_decide_eq_true hInput)).mpr hProper

/- The first ECHO of a party comes once more. -/
theorem decoder_input_repeated :
    ∃ g, HandleEcho.new.read fourConfig 0 (fourEcho 0) =
        some g ∧
      decoderInput fourConfig 0 g (fourEcho 0) =
          some [[7], [], [], []] ∧
        ¬ Sane fourRecover 2 [[7], [], [], []] ∧
          g.read fourConfig 0 (fourEcho 0) = none := by
  have hInput :
      (HandleEcho.new.read fourConfig 0 (fourEcho 0)).any
        (fun g =>
          decoderInput fourConfig 0 g (fourEcho 0) =
            some [[7], [], [], []]) = true := by
    decide +kernel
  rcases Option.any_eq_true _ _ |>.mp hInput with
    ⟨g, hRead, hInput⟩
  have hInput := of_decide_eq_true hInput
  refine
    ⟨g, hRead, hInput, ?_, read_eq_none hInput (by decide)⟩
  intro hSane
  exact absurd hSane.decodable (by decide)

end CodedBroadcast

end Jumbo
