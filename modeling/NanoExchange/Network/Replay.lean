import NanoExchange.Network.Feed
import NanoExchange.Network.ShadowRefinement
import NanoExchange.Lib.Window

/-!
# Replay returns what was published

The datagrams of the feed are numbered without gaps in every schedule, and a
replay request is answered with the datagrams that the client has missed, as
long as the ring still has them.

The exception is a streamer that has reached the largest sequence number: the
loop of `serveReplay` stops at the first `seq` past `last_seq_num_`, which a
64-bit `seq` cannot be, so the request is never answered.
-/

namespace NanoExchange

open Lib

/-- What the matching engine promises of an update for `n` tickers. -/
structure EngineUpdate (n : Nat) (u : MEMarketUpdate) : Prop where
  incremental : u.type.Incremental
  ticker : u.tickerId < n

theorem Event.updates_incremental (e : Event) (d : Dialect) :
    ∀ u ∈ e.updates d, u.type.Incremental := by
  cases e with
  | rested replacing =>
      cases replacing <;>
        simp [updates, outputs, addUpdate, UpdateType.Incremental]
  | killed replacing =>
      cases replacing with
      | false => simp [updates, outputs]
      | true =>
          cases hd : d.reportsKilledReplacement <;>
            simp [updates, outputs, hd, cancelUpdate, UpdateType.Incremental]
  | modified =>
      simp [updates, outputs, modifyUpdate, UpdateType.Incremental]
  | filled => simp [updates, outputs, tradeUpdate, UpdateType.Incremental]
  | canceled => simp [updates, outputs, cancelUpdate, UpdateType.Incremental]
  | accepted | excessive | unknown => simp [updates, outputs]

theorem Market.run_events_tickerId
    {n : Nat} {rs : List MEClientRequest} (htickers : TickersInRange n rs) :
    ∀ e ∈ (run rs).events, e.tickerId < n := by
  induction rs using List.reverseRecOn with
  | nil => simp [run, start]
  | append_singleton rs r ih =>
      intro e he
      rw [run_append] at he
      rcases List.mem_append.mp he with he | he
      · exact ih (fun r' hr' => htickers r' (by simp [hr'])) e he
      · rw [Ladder.step_events_tickerId _ _ r e he]
        exact htickers r (by simp)

/-- What is published in a run of the market is as a publisher expects it. -/
theorem Market.run_engineUpdate
    {n : Nat} {rs : List MEClientRequest} (htickers : TickersInRange n rs)
    (d : Dialect) :
    ∀ u ∈ ((run rs).sent d).updates, EngineUpdate n u := by
  rw [sent_updates]
  intro u hu
  obtain ⟨x, hx, hu⟩ := List.mem_flatMap.mp hu
  refine ⟨x.updates_incremental _ u hu, ?_⟩
  rw [x.updates_tickerId _ u hu]
  exact run_events_tickerId htickers x hx

/-- The updates of a matching engine are as its publisher expects them. -/
theorem MatchingEngine.engineUpdate_of_run
    {Lv : Type} [LevelTable Lv] [LawfulLevels Lv] [BookImpl Lv]
    [LawfulBook Lv] {P : Type} [ObjectPool P] {n poolSize : Nat}
    {rs : List MEClientRequest}
    (hfresh : FreshKeys rs) (htickers : TickersInRange n rs)
    (hprice : ∀ r ∈ rs, Priced Lv r) {e : MatchingEngine Lv P}
    (he : MatchingEngine.run Lv P n poolSize rs = .ok e) :
    ∀ u ∈ e.channel.updates, EngineUpdate n u := by
  have hrep := (run_refines P n poolSize hfresh htickers hprice).of_ok he
  rw [hrep.sent]
  exact Market.run_engineUpdate htickers _

theorem ShadowBook.applyToBook_ok
    {n : Nat} {b : ShadowBook} {u : MEMarketUpdate}
    (hb : b.shadowBook.length = n) (hu : u.tickerId < n) :
    ∃ b', b.applyToBook u = .ok b' ∧ b'.shadowBook.length = n := by
  have hmodify : ∀ g, ∃ b', b.modifyAt u.tickerId g = .ok b' ∧
      b'.shadowBook.length = n := by
    intro g
    simp [modifyAt, List.getElem?_eq_getElem (hb ▸ hu), hb]
  unfold applyToBook
  cases u.type with
  | add | cancel | modify => exact hmodify _
  | trade =>
      rw [List.getElem?_eq_getElem (hb ▸ hu)]
      dsimp only
      split
      · exact hmodify _
      · exact ⟨_, rfl, hb⟩
  | snapshotStart | clear | snapshotEnd => exact ⟨b, rfl, hb⟩

namespace SnapshotUpdate

theorem datagram_make
    (L : ItchLayout) (now : Nat) (u : MEMarketUpdate) (k : Nat) :
    (make L now u k).datagram = toBigEndian 8 k ++ L.encode now u := by
  simp [make, datagram]

/-- The entry fits into its buffer. -/
theorem len_make_le
    (L : ItchLayout) (now : Nat) (u : MEMarketUpdate) (k : Nat) :
    (make L now u k).len ≤ (make L now u k).bytes.length ∧
      (make L now u k).len < 2 ^ 16 := by
  have hle := L.length_encode_le now u
  constructor
  · simp [make]
  · exact Nat.lt_of_le_of_lt hle (by decide)

end SnapshotUpdate

namespace SnapshotStreamer

/-- Sequence number `k + 1` has the slot of the `k`-th element of the
stream. -/
theorem slot_succ {k : Nat} (hk : k < wordSize) :
    slot (k + 1) = k % replayCapacity := by
  have hpred : (k + 1 + (wordSize - 1)) % wordSize = k := by
    have hpos : 0 < wordSize := by decide
    have hword : k + 1 + (wordSize - 1) = k + wordSize := by omega
    rw [hword, Nat.add_mod_right, Nat.mod_eq_of_lt hk]
  rw [slot, hpred]
  exact Nat.and_two_pow_sub_one_eq_mod k 13

/-- The streamer has handled the entries `D`. -/
structure Keeps (n : Nat) (D : List SnapshotUpdate) (s : SnapshotStreamer) :
    Prop where
  tickers : s.book.shadowBook.length = n
  last : s.lastSeqNum = D.length
  ring : Window.Holds replayCapacity (fun k => (s.replayBuffer k).frame)
    (D.map (·.datagram))

variable {L : ItchLayout} {n : Nat} {D : List SnapshotUpdate}
  {s : SnapshotStreamer}

/-- `memcpy` of the payload and its length makes the frame the datagram. -/
theorem frame_writeReplayEntry
    (s : SnapshotStreamer) {snap : SnapshotUpdate}
    (hbytes : snap.len ≤ snap.bytes.length) (hlen : snap.len < 2 ^ 16) :
    (fun k => ((s.writeReplayEntry snap).replayBuffer k).frame) =
      Function.update (fun k => (s.replayBuffer k).frame)
        (slot snap.seqNum) snap.datagram := by
  funext k
  by_cases hk : k = slot snap.seqNum
  · subst hk
    have htake : (snap.bytes.take snap.len).length = snap.len := by
      rw [List.length_take, Nat.min_eq_left hbytes]
    simp only [writeReplayEntry, Function.update_self, ReplayEntry.frame,
      SnapshotUpdate.datagram, Nat.mod_eq_of_lt hlen]
    rw [List.take_left' htake]
  · simp [writeReplayEntry, Function.update_of_ne hk]

theorem Keeps.drain
    (h : s.Keeps n D) (now : Nat) {u : MEMarketUpdate}
    (hu : u.tickerId < n) (hlen : D.length < wordSize) :
    ∃ s', s.drain (.make L now u (D.length + 1)) = .ok s' ∧
      s'.Keeps n (D ++ [.make L now u (D.length + 1)]) := by
  obtain ⟨b, hb, hbn⟩ := ShadowBook.applyToBook_ok h.tickers hu
  obtain ⟨hbytes, hshort⟩ :=
    SnapshotUpdate.len_make_le L now u (D.length + 1)
  unfold SnapshotStreamer.drain
  rw [show (SnapshotUpdate.make L now u (D.length + 1)).update = u from rfl,
    hb, ok_bind]
  refine ⟨_, rfl, hbn, ?_, ?_⟩
  · simp [SnapshotUpdate.make]
  · have hring := h.ring.write
      (SnapshotUpdate.make L now u (D.length + 1)).datagram
    rw [List.length_map, ← slot_succ hlen] at hring
    rw [List.map_append]
    dsimp only
    rw [frame_writeReplayEntry _ hbytes hshort]
    exact hring

/-- The frame of sequence number `k + 1`, for the entries in the ring. -/
theorem Keeps.frame
    (h : s.Keeps n D) {k : Nat} (hk : k < D.length)
    (hcap : D.length ≤ k + replayCapacity) (hword : D.length < wordSize) :
    (s.replayBuffer (slot (k + 1))).frame = D[k].datagram := by
  rw [slot_succ (hk.trans hword)]
  refine h.ring k _ ?_ ?_
  · rw [List.getElem?_map, List.getElem?_eq_getElem hk, Option.map_some]
  · rwa [List.length_map]

/-- The loop of `serveReplay` copies the rest of the stream. -/
theorem Keeps.replayLoop
    (h : s.Keeps n D) (hword : D.length + 1 < wordSize)
    {k fuel : Nat} (hk : k ≤ D.length)
    (hcap : D.length ≤ k + replayCapacity) (hfuel : D.length < k + fuel)
    (scratch : List UInt8) :
    s.replayLoop fuel (k + 1) scratch =
      .ok (scratch ++ ((D.map (·.datagram)).drop k).flatten) := by
  induction fuel generalizing k scratch with
  | zero => omega
  | succ fuel ih =>
      rw [SnapshotStreamer.replayLoop, h.last]
      by_cases hlt : k < D.length
      · rw [if_pos (Nat.succ_le_of_lt hlt),
          Nat.mod_eq_of_lt (Nat.lt_of_le_of_lt (Nat.succ_le_succ hlt) hword),
          h.frame hlt hcap (Nat.lt_of_succ_lt hword),
          ih (by omega) (by omega) (by omega)]
        have hlen : k < (D.map (·.datagram)).length := by
          rwa [List.length_map]
        rw [List.drop_eq_getElem_cons hlen, List.flatten_cons,
          List.getElem_map, List.append_assoc]
      · have hlen : (D.map (·.datagram)).length ≤ k := by
          rw [List.length_map]
          omega
        rw [if_neg (by omega), List.drop_eq_nil_of_le hlen,
          List.flatten_nil, List.append_nil]

/-- At the largest sequence number the loop does not stop: `++seq` starts
again from zero. -/
theorem replayLoop_last
    (h : s.lastSeqNum = wordSize - 1) (fuel : Nat) {seq : Nat}
    (hseq : seq < wordSize) (scratch : List UInt8) :
    s.replayLoop fuel seq scratch = .error .outOfFuel := by
  induction fuel generalizing seq scratch with
  | zero => rfl
  | succ fuel ih =>
      rw [replayLoop, h, if_pos (Nat.le_sub_one_of_lt hseq)]
      exact ih (Nat.mod_lt _ (by decide)) _

/-- The request is answered with these bytes. -/
def Answers (s : SnapshotStreamer) (clientSeq : Nat) (bytes : List UInt8) :
    Prop :=
  ∃ bound, ∀ fuel ≥ bound, s.serveReplay fuel clientSeq = .ok bytes

/-- The answer that a client is promised: it is current, or it has missed too
much, or it gets the datagrams after its own sequence number. -/
def replayAnswer (lastSeqNum : Nat) (udp : List (List UInt8))
    (clientSeq : Nat) : List UInt8 :=
  if clientSeq ≥ lastSeqNum then [67]
  else if lastSeqNum - clientSeq > replayCapacity then [78]
  else 82 :: ((udp.take lastSeqNum).drop clientSeq).flatten

/-- The loop is entered at the largest sequence number. -/
def Overruns (s : SnapshotStreamer) (clientSeq : Nat) : Prop :=
  s.lastSeqNum = wordSize - 1 ∧ clientSeq < s.lastSeqNum ∧
    s.lastSeqNum - clientSeq ≤ replayCapacity

/-- The saturating subtraction of `oldest_replayable` decides the window. -/
theorem lt_oldestReplayable_iff {lastSeqNum clientSeq : Nat} :
    clientSeq <
        (if lastSeqNum > replayCapacity then lastSeqNum - replayCapacity
          else 0) ↔
      lastSeqNum - clientSeq > replayCapacity := by
  split <;> omega

theorem not_answers_of_overruns
    {clientSeq : Nat} (h : s.Overruns clientSeq) (bytes : List UInt8) :
    ¬ s.Answers clientSeq bytes := by
  rintro ⟨bound, hbound⟩
  obtain ⟨hlast, hlt, hcap⟩ := h
  have hserve := hbound bound (Nat.le_refl _)
  rw [serveReplay, if_neg (by omega)] at hserve
  dsimp only at hserve
  rw [if_neg (lt_oldestReplayable_iff.not.mpr (by omega)),
    replayLoop_last hlast _ (Nat.mod_lt _ (by decide))] at hserve
  cases hserve

theorem Keeps.answers
    (h : s.Keeps n D) (hword : D.length < wordSize)
    {clientSeq : Nat} (hover : ¬ s.Overruns clientSeq) :
    s.Answers clientSeq
      (replayAnswer D.length (D.map (·.datagram)) clientSeq) := by
  refine ⟨D.length + 1, fun fuel hfuel => ?_⟩
  rw [serveReplay, replayAnswer, h.last]
  by_cases hcur : clientSeq ≥ D.length
  · rw [if_pos hcur, if_pos hcur]
  rw [if_neg hcur, if_neg hcur]
  dsimp only
  by_cases hgap : D.length - clientSeq > replayCapacity
  · rw [if_pos (lt_oldestReplayable_iff.mpr hgap), if_pos hgap]
  have hshort : D.length + 1 < wordSize := by
    by_contra hlong
    exact hover ⟨by rw [h.last]; omega, by rw [h.last]; omega,
      by rw [h.last]; omega⟩
  rw [if_neg (lt_oldestReplayable_iff.not.mpr hgap), if_neg hgap, Nat.mod_eq_of_lt (by omega),
    h.replayLoop hshort (by omega) (by omega) (by omega), ok_bind,
    List.nil_append, List.take_of_length_le (by rw [List.length_map])]

end SnapshotStreamer

/-- The entry that is sent and not yet pushed. -/
def Phase.inHand : Phase → List SnapshotUpdate
  | .sent snap => [snap]
  | .idle | .encoded _ | .pushed => []

namespace Feed

/-- The updates that are not yet sent. -/
def unsent (f : Feed) : List MEMarketUpdate :=
  match f.phase with
  | .idle | .encoded _ => f.marketUpdates
  | .sent _ | .pushed => f.marketUpdates.tail

/-- The publisher's sequence number after `k` entries, and the entry it is
about to send. -/
def Ready (L : ItchLayout) (k : Nat) (f : Feed) : Prop :=
  match f.phase with
  | .idle => f.nextSeqNum = (k + 1) % wordSize
  | .encoded snap =>
      f.nextSeqNum = (k + 1) % wordSize ∧
        ∃ now u rest, f.marketUpdates = u :: rest ∧
          snap = .make L now u f.nextSeqNum
  | .sent _ | .pushed => f.nextSeqNum = k

/-- The entries `E` have been sent and the streamer has handled the first ones
of them, `D`. -/
structure Published (L : ItchLayout) (n : Nat) (us : List MEMarketUpdate)
    (E D : List SnapshotUpdate) (f : Feed) : Prop where
  entries : E = D ++ f.streamerUpdates ++ f.phase.inHand
  made : Along (fun pre snap =>
    ∃ now, snap = .make L now snap.update (pre.length + 1)) E
  stream : E.map (·.update) ++ f.unsent = us
  udp : f.udp = E.map (·.datagram)
  ready : f.Ready L E.length
  streamer : f.streamer.Keeps n D

namespace Published

variable {L : ItchLayout} {n : Nat} {us : List MEMarketUpdate}
  {E D : List SnapshotUpdate} {f : Feed}

theorem init (ring : Nat → ReplayEntry) :
    Published L n us [] [] (Feed.init n ring us) where
  entries := rfl
  made := along_nil
  stream := rfl
  udp := rfl
  ready := rfl
  streamer := ⟨List.length_replicate, rfl, Window.Holds.nil _⟩

/-- Sending one more entry stays below the last sequence number. -/
theorem length_lt
    (h : Published L n us E D f) {u : MEMarketUpdate}
    {rest : List MEMarketUpdate} (hu : f.unsent = u :: rest) :
    E.length < us.length := by
  rw [← h.stream, hu]
  simp

theorem mem_of_unsent
    (h : Published L n us E D f) {u : MEMarketUpdate}
    {rest : List MEMarketUpdate} (hu : f.unsent = u :: rest) :
    u ∈ us := by
  rw [← h.stream, hu]
  simp

theorem length_le (h : Published L n us E D f) : E.length ≤ us.length := by
  rw [← h.stream]
  simp

theorem encode
    (h : Published L n us E D f) (now : Nat) :
    ∃ f', f.step L (.encode now) = .ok f' ∧ Published L n us E D f' := by
  rw [step]
  split
  · rename_i u rest hphase hupdates
    refine ⟨_, rfl, ?_, h.made, ?_, h.udp, ?_, h.streamer⟩
    · simpa [hphase, Phase.inHand] using h.entries
    · simpa [hphase, unsent] using h.stream
    · have hready := h.ready
      simp only [Ready, hphase] at hready
      exact ⟨hready, now, u, rest, hupdates, rfl⟩
  · exact ⟨f, rfl, h⟩

/-- Every update of the engine has bytes to send, under the next number. -/
theorem send
    (hus : ∀ u ∈ us, EngineUpdate n u) (hlen : us.length < wordSize)
    (h : Published L n us E D f) :
    ∃ f' E', f.step L .send = .ok f' ∧ Published L n us E' D f' := by
  rw [step]
  split
  · rename_i snap hphase
    have hready := h.ready
    simp only [Ready, hphase] at hready
    obtain ⟨hnext, now, u, rest, hupdates, rfl⟩ := hready
    have hunsent : f.unsent = u :: rest := by
      rw [unsent, hphase]
      exact hupdates
    have hlt := h.length_lt hunsent
    rw [Nat.mod_eq_of_lt (by omega)] at hnext
    have hpos : (SnapshotUpdate.make L now u f.nextSeqNum).len > 0 :=
      List.length_pos_of_ne_nil
        (L.encode_ne_nil now (hus u (h.mem_of_unsent hunsent)).incremental)
    rw [if_pos hpos]
    refine ⟨_, E ++ [.make L now u f.nextSeqNum], rfl, ?_, ?_, ?_, ?_, ?_,
      h.streamer⟩
    · have hE := h.entries
      simp only [hphase, Phase.inHand, List.append_nil] at hE
      rw [hE]
      rfl
    · exact along_concat.mpr ⟨h.made, now, by rw [hnext]; rfl⟩
    · have hstream := h.stream
      rw [hunsent] at hstream
      simpa [unsent, sendToIncrementalNetwork, hupdates,
        SnapshotUpdate.make] using hstream
    · simp only [sendToIncrementalNetwork, h.udp, List.map_append]
      rfl
    · simpa [Ready, sendToIncrementalNetwork] using hnext
  · exact ⟨f, E, rfl, h⟩

theorem push
    (h : Published L n us E D f) :
    ∃ f', f.step L .push = .ok f' ∧ Published L n us E D f' := by
  rw [step]
  split
  · rename_i snap hphase
    have hready := h.ready
    simp only [Ready, hphase] at hready
    refine ⟨_, rfl, ?_, h.made, ?_, h.udp, hready, h.streamer⟩
    · simpa [hphase, Phase.inHand] using h.entries
    · simpa [hphase, unsent] using h.stream
  · exact ⟨f, rfl, h⟩

theorem advance
    (h : Published L n us E D f) :
    ∃ f', f.step L .advance = .ok f' ∧ Published L n us E D f' := by
  rw [step]
  split
  · rename_i hphase
    have hready := h.ready
    simp only [Ready, hphase] at hready
    refine ⟨_, rfl, ?_, h.made, ?_, h.udp, ?_, h.streamer⟩
    · simpa [hphase, Phase.inHand] using h.entries
    · simpa [hphase, unsent] using h.stream
    · simp [Ready, hready]
  · exact ⟨f, rfl, h⟩

/-- The next entry of the queue has the number after the streamer's last. -/
theorem drain
    (hus : ∀ u ∈ us, EngineUpdate n u) (hlen : us.length < wordSize)
    (h : Published L n us E D f) :
    ∃ f' D', f.step L .drain = .ok f' ∧ Published L n us E D' f' := by
  rw [step]
  split
  · exact ⟨f, D, rfl, h⟩
  · rename_i snap rest hqueue
    have hE : E = D ++ snap :: (rest ++ f.phase.inHand) := by
      rw [h.entries, hqueue]
      simp
    have hle := h.length_le
    have hword : D.length < wordSize := by
      rw [hE, List.length_append] at hle
      omega
    obtain ⟨now, hmake⟩ := h.made D snap _ hE
    have hmem : snap.update ∈ us := by
      rw [← h.stream, hE]
      simp
    obtain ⟨s, hs, hkeeps⟩ :=
      h.streamer.drain (L := L) now (hus _ hmem).ticker hword
    rw [← hmake] at hs hkeeps
    rw [hs, ok_bind]
    refine ⟨_, D ++ [snap], rfl, ?_, h.made, h.stream, h.udp, h.ready,
      hkeeps⟩
    rw [hE]
    simp

theorem step
    (hus : ∀ u ∈ us, EngineUpdate n u) (hlen : us.length < wordSize)
    (f : Feed) (a : FeedAction) (h : ∃ E D, Published L n us E D f) :
    ∃ f', f.step L a = .ok f' ∧ ∃ E D, Published L n us E D f' := by
  obtain ⟨E, D, h⟩ := h
  cases a with
  | encode now =>
      obtain ⟨f', hf, h'⟩ := h.encode now
      exact ⟨f', hf, E, D, h'⟩
  | send =>
      obtain ⟨f', E', hf, h'⟩ := h.send hus hlen
      exact ⟨f', hf, E', D, h'⟩
  | push =>
      obtain ⟨f', hf, h'⟩ := h.push
      exact ⟨f', hf, E, D, h'⟩
  | advance =>
      obtain ⟨f', hf, h'⟩ := h.advance
      exact ⟨f', hf, E, D, h'⟩
  | drain =>
      obtain ⟨f', D', hf, h'⟩ := h.drain hus hlen
      exact ⟨f', hf, E, D', h'⟩

/-- No schedule makes the feed fault. -/
theorem run
    (hus : ∀ u ∈ us, EngineUpdate n u) (hlen : us.length < wordSize)
    (ring : Nat → ReplayEntry) (schedule : List FeedAction) :
    ∃ f, Feed.run L n ring us schedule = .ok f ∧
      ∃ E D, Published L n us E D f :=
  foldlM_invariant (fun f => ∃ E D, Published L n us E D f)
    (step hus hlen) ⟨[], [], init ring⟩ schedule

/-- Datagram `k` is the `k`-th update under sequence number `k + 1`. -/
theorem datagram
    (h : Published L n us E D f) {k : Nat} (hk : k < f.udp.length) :
    ∃ now u, us[k]? = some u ∧
      f.udp[k]? = some (toBigEndian 8 (k + 1) ++ L.encode now u) := by
  have hkE : k < E.length := by
    rwa [h.udp, List.length_map] at hk
  obtain ⟨now, hmake⟩ := h.made.getElem? (List.getElem?_eq_getElem hkE)
  rw [List.length_take, Nat.min_eq_left hkE.le] at hmake
  refine ⟨now, E[k].update, ?_, ?_⟩
  · rw [← h.stream, List.getElem?_append_left (by rwa [List.length_map]),
      List.getElem?_map, List.getElem?_eq_getElem hkE, Option.map_some]
  · rw [h.udp, List.getElem?_map, List.getElem?_eq_getElem hkE,
      Option.map_some, ← SnapshotUpdate.datagram_make, ← hmake]

/-- The streamer has handled the first datagrams. -/
theorem drained
    (h : Published L n us E D f) :
    f.udp.take D.length = D.map (·.datagram) ∧ D.length ≤ f.udp.length := by
  rw [h.udp, h.entries]
  simp

end Published

/-- Everything that was taken is handled, `rest` is still to come. -/
structure Settled (rest : List MEMarketUpdate) (f : Feed) : Prop where
  phase : f.phase = .idle
  streamerUpdates : f.streamerUpdates = []
  marketUpdates : f.marketUpdates = rest

/-- One update on its way through both threads. -/
def round : List FeedAction := [.encode 0, .send, .push, .advance, .drain]

theorem Settled.round
    {L : ItchLayout} {f f' : Feed} {u : MEMarketUpdate}
    {rest : List MEMarketUpdate} (h : f.Settled (u :: rest))
    (hu : u.type.Incremental) (hrun : round.foldlM (step L) f = .ok f') :
    f'.Settled rest := by
  obtain ⟨updates, next, phase, udp, queue, streamer⟩ := f
  obtain ⟨rfl, rfl, rfl⟩ := h
  have hpos : 0 < (L.encode 0 u).length :=
    List.length_pos_of_ne_nil (L.encode_ne_nil 0 hu)
  simp only [Feed.round, List.foldlM_cons, List.foldlM_nil, step, ok_bind,
    SnapshotUpdate.make, hpos, if_true, gt_iff_lt,
    sendToIncrementalNetwork, List.nil_append, List.tail_cons] at hrun
  rw [bind_pure] at hrun
  -- the streamer's own step is the only one that could fault
  generalize streamer.drain _ = drained at hrun
  cases drained with
  | error e => cases hrun
  | ok s =>
      obtain rfl := Except.ok.inj hrun
      exact ⟨rfl, rfl, rfl⟩

/-- The schedule that takes the updates through one by one. -/
def publishAll (us : List MEMarketUpdate) : List FeedAction :=
  us.flatMap fun _ => round

theorem Settled.publishAll
    {L : ItchLayout} {f f' : Feed} {us : List MEMarketUpdate}
    (h : f.Settled us) (hus : ∀ u ∈ us, u.type.Incremental)
    (hrun : (publishAll us).foldlM (step L) f = .ok f') :
    f'.Settled [] := by
  induction us generalizing f with
  | nil =>
      obtain rfl := Except.ok.inj hrun
      exact h
  | cons u us ih =>
      rw [Feed.publishAll, List.flatMap_cons] at hrun
      obtain ⟨f₁, hround, hrest⟩ := foldlM_append_ok hrun
      have h₁ := h.round (hus u List.mem_cons_self) hround
      exact ih h₁ (fun v hv => hus v (List.mem_cons_of_mem _ hv)) hrest

/-- Every stream can be published and handled to its end. -/
theorem run_publishAll
    (L : ItchLayout) {n : Nat} (ring : Nat → ReplayEntry)
    {us : List MEMarketUpdate} (hus : ∀ u ∈ us, EngineUpdate n u)
    (hlen : us.length < wordSize) :
    ∃ f, run L n ring us (publishAll us) = .ok f ∧
      f.streamer.lastSeqNum = us.length := by
  obtain ⟨f, hf, E, D, h⟩ :=
    Published.run (L := L) hus hlen ring (publishAll us)
  have hsettled : f.Settled [] :=
    Settled.publishAll ⟨rfl, rfl, rfl⟩ (fun u hu => (hus u hu).incremental) hf
  refine ⟨f, hf, ?_⟩
  have hE : E = D := by
    rw [h.entries, hsettled.streamerUpdates, hsettled.phase]
    simp [Phase.inHand]
  have hus : E.map (·.update) = us := by
    have hstream := h.stream
    rw [unsent, hsettled.phase, hsettled.marketUpdates] at hstream
    simpa using hstream
  rw [h.streamer.last, ← hE, ← hus, List.length_map]

/-- In every schedule the datagrams are numbered from one on and carry the
updates of the engine in their order, and a replay request is answered with the
datagrams after the client's sequence number if and only if the loop of
`serveReplay` is not entered at the largest sequence number. -/
theorem replay_returns_published_frames
    (L : ItchLayout) {n : Nat} (ring : Nat → ReplayEntry)
    {us : List MEMarketUpdate} (hus : ∀ u ∈ us, EngineUpdate n u)
    (hlen : us.length < wordSize) (schedule : List FeedAction) :
    ∃ f, run L n ring us schedule = .ok f ∧
      (∀ k < f.udp.length, ∃ now u, us[k]? = some u ∧
        f.udp[k]? = some (toBigEndian 8 (k + 1) ++ L.encode now u)) ∧
      f.streamer.lastSeqNum ≤ f.udp.length ∧
      ∀ clientSeq < wordSize,
        f.streamer.Answers clientSeq
            (SnapshotStreamer.replayAnswer f.streamer.lastSeqNum f.udp
              clientSeq) ↔
          ¬ f.streamer.Overruns clientSeq := by
  obtain ⟨f, hf, E, D, h⟩ := Published.run hus hlen ring schedule
  obtain ⟨htake, hle⟩ := h.drained
  refine ⟨f, hf, fun k hk => h.datagram hk, by rwa [h.streamer.last],
    fun clientSeq _ => ⟨?_, fun hover => ?_⟩⟩
  · intro hanswer hover
    exact SnapshotStreamer.not_answers_of_overruns hover _ hanswer
  · have hword : D.length < wordSize := by
      have hE := h.length_le
      rw [h.udp, List.length_map] at hle
      omega
    have hanswer := h.streamer.answers hword hover
    rw [h.streamer.last, SnapshotStreamer.replayAnswer, htake]
    rwa [SnapshotStreamer.replayAnswer,
      List.take_of_length_le (by rw [List.length_map])] at hanswer

/-- An engine that enters orders at one price and cancels each at once. -/
def quoteUpdate (k : Nat) : MEMarketUpdate where
  tickerId := 0
  marketOrderId := k / 2 + 1
  type := if k % 2 = 0 then .add else .cancel
  side := .buy
  price := 100
  qty := 10

theorem engineUpdate_quoteUpdate (k : Nat) :
    EngineUpdate 1 (quoteUpdate k) where
  incremental := by
    unfold quoteUpdate
    dsimp only
    split <;> trivial
  ticker := Nat.zero_lt_one

/-- Two orders are sent and the first is handled: a client that has nothing
gets the first datagram. -/
theorem replay_returns_published_frames_example :
    ∃ f, run .packed 1 (fun _ => ⟨[], [], 0⟩) [quoteUpdate 0, quoteUpdate 1]
        [.encode 5, .send, .encode 6, .push, .advance, .drain, .encode 7,
          .send] = .ok f ∧
      f.udp.length = 2 ∧ f.streamer.lastSeqNum = 1 ∧
      f.streamer.Answers 0
        (82 :: (toBigEndian 8 1 ++
          ItchLayout.packed.encode 5 (quoteUpdate 0))) := by
  have hus : ∀ u ∈ [quoteUpdate 0, quoteUpdate 1], EngineUpdate 1 u := by
    simp [engineUpdate_quoteUpdate]
  obtain ⟨f, hf, -, -, hanswer⟩ :=
    replay_returns_published_frames .packed (fun _ => ⟨[], [], 0⟩) hus
      (by decide)
      [.encode 5, .send, .encode 6, .push, .advance, .drain, .encode 7, .send]
  have hzero := hanswer 0 (by decide)
  refine ⟨f, hf, ?_⟩
  obtain rfl := Except.ok.inj hf
  refine ⟨rfl, rfl, hzero.mpr ?_⟩
  rintro ⟨hlast, -⟩
  revert hlast
  decide

/-- After `2 ^ 64 - 1` updates the last datagram cannot be replayed. -/
theorem replay_of_last_frame_never_answered :
    ∃ f, run .packed 1 (fun _ => ⟨[], [], 0⟩)
        ((List.range (wordSize - 1)).map quoteUpdate)
        (publishAll ((List.range (wordSize - 1)).map quoteUpdate)) = .ok f ∧
      f.streamer.lastSeqNum = wordSize - 1 ∧
      ¬ f.streamer.Answers (wordSize - 2)
        (SnapshotStreamer.replayAnswer f.streamer.lastSeqNum f.udp
          (wordSize - 2)) := by
  have hus : ∀ u ∈ (List.range (wordSize - 1)).map quoteUpdate,
      EngineUpdate 1 u := by
    intro u hu
    obtain ⟨k, -, rfl⟩ := List.mem_map.mp hu
    exact engineUpdate_quoteUpdate k
  have hlength : ((List.range (wordSize - 1)).map quoteUpdate).length =
      wordSize - 1 := by
    rw [List.length_map, List.length_range]
  obtain ⟨f, hf, hlast⟩ := run_publishAll .packed (fun _ => ⟨[], [], 0⟩) hus
    (by rw [hlength]; decide)
  rw [hlength] at hlast
  refine ⟨f, hf, hlast, SnapshotStreamer.not_answers_of_overruns ?_ _⟩
  refine ⟨hlast, ?_, ?_⟩
  · rw [hlast]
    decide
  · rw [hlast]
    decide

end Feed

end NanoExchange
