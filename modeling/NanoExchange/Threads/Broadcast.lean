import NanoExchange.Threads.Schedules
import NanoExchange.Network.EndToEnd

/-!
# What the threads send to the network

`BackEnd` has the publisher and the streamer next to the other threads, and
leaves out the bytes and the books.  `Feed` has the bytes and the books, and all
updates at hand from the start.  Here the first is shown to refine the second:
whatever the threads of the exchange do, publisher and streamer are where some
schedule of the feed takes them (`threads_publish_feed`).

So what holds of the feed holds of the threads.  In particular whoever
listens to the datagrams, whichever of them get lost or come late, has the
quotes of the books of the engine (`Reachable.informs`).
-/

namespace NanoExchange

open Lib

/-- Sequence number and update of an entry. -/
def SnapshotUpdate.entry (snap : SnapshotUpdate) : Nat × MEMarketUpdate :=
  (snap.seqNum, snap.update)

/-- The datagrams of entries; `clock` is what the publisher reads the time
from. -/
def datagrams (L : ItchLayout) (clock : Nat → Nat)
    (entries : List (Nat × MEMarketUpdate)) : List (List UInt8) :=
  entries.mapIdx fun i p =>
    (SnapshotUpdate.make L (clock i) p.2 p.1).datagram

theorem datagrams_append_singleton
    (L : ItchLayout) (clock : Nat → Nat)
    (entries : List (Nat × MEMarketUpdate)) (p : Nat × MEMarketUpdate) :
    datagrams L clock (entries ++ [p]) = datagrams L clock entries ++
      [(SnapshotUpdate.make L (clock entries.length) p.2 p.1).datagram] := by
  unfold datagrams
  rw [List.mapIdx_append]
  simp

/-- Two accounts of where the publisher is agree. -/
def PublisherPhase.Matches : PublisherPhase → Phase → Prop
  | .test, .idle | .poll, .idle | .exited, .idle | .advance, .pushed => True
  | .push entry, .sent snap => snap.entry = entry
  | _, _ => False

namespace PublisherPhase.Matches

variable {q : Phase}

theorem idle {p : PublisherPhase} (h : p.Matches q) (hp : ¬ p.Sending) :
    q = .idle := by
  cases p with
  | test | poll | exited =>
      cases q with
      | idle => rfl
      | encoded | sent | pushed => exact h.elim
  | push | advance => exact absurd trivial hp

theorem sent {entry : Nat × MEMarketUpdate} (h : (push entry).Matches q) :
    ∃ snap, q = .sent snap ∧ snap.entry = entry := by
  cases q with
  | sent snap => exact ⟨snap, rfl, h⟩
  | idle | encoded | pushed => exact h.elim

theorem pushed (h : advance.Matches q) : q = .pushed := by
  cases q with
  | pushed => rfl
  | idle | encoded | sent => exact h.elim

end PublisherPhase.Matches

namespace BackEnd

namespace Serves

variable {us : List MEMarketUpdate} {b : BackEnd}

theorem mem_of_published
    (h : b.Serves us) {p : Nat × MEMarketUpdate} (hp : p ∈ b.published) :
    p.2 ∈ us := by
  obtain ⟨i, hi, rfl⟩ :=
    List.mem_mapIdx.mp (h.published_numbered.subset hp)
  exact List.getElem_mem hi

theorem mem_of_streamerUpdates
    (h : b.Serves us) {p : Nat × MEMarketUpdate}
    (hp : p ∈ b.streamerUpdates) :
    p.2 ∈ us := by
  refine h.mem_of_published ?_
  rw [← h.streamed]
  simp [hp]

end Serves

/-- The feed of the updates `us` is where publisher and streamer are. -/
structure Realized (L : ItchLayout) (clock : Nat → Nat) (n : Nat)
    (us : List MEMarketUpdate) (b : BackEnd) (f : Feed) : Prop where
  marketUpdates : f.marketUpdates = us.drop b.taken.length
  nextSeqNum : f.nextSeqNum = b.nextSeqNum
  phase : b.publisherPhase.Matches f.phase
  udp : f.udp = datagrams L clock b.published
  streamerUpdates :
    f.streamerUpdates.map SnapshotUpdate.entry = b.streamerUpdates
  book : (b.streamed.map Prod.snd).foldlM ShadowBook.applyToBook
    (ShadowBook.init n) = .ok f.streamer.book
  lastSeqNum : f.streamer.lastSeqNum = (b.streamed.map Prod.fst).getLastD 0

namespace Realized

variable {L : ItchLayout} {clock : Nat → Nat} {n : Nat}
  {us sent : List MEMarketUpdate} {b b' : BackEnd} {f : Feed}

theorem init (ring : Nat → ReplayEntry) :
    Realized L clock n us {} (Feed.init n ring us) where
  marketUpdates := rfl
  nextSeqNum := rfl
  phase := trivial
  udp := rfl
  streamerUpdates := rfl
  book := rfl
  lastSeqNum := rfl

/-- The feed does not see how many updates are in the queue. -/
theorem of_queue
    (h : Realized L clock n us b f) (q : List MEMarketUpdate) :
    Realized L clock n us { b with marketUpdateQ := q } f :=
  ⟨h.marketUpdates, h.nextSeqNum, h.phase, h.udp, h.streamerUpdates, h.book,
    h.lastSeqNum⟩

/-- The first update of the queue is the next one of the feed. -/
theorem head
    (h : Realized L clock n us b f) (hserves : b.Serves sent)
    (hsent : sent <+: us) {u : MEMarketUpdate} {rest : List MEMarketUpdate}
    (hq : b.marketUpdateQ = u :: rest) :
    ∃ rest', f.marketUpdates = u :: rest' := by
  obtain ⟨more, rfl⟩ := hsent
  refine ⟨rest ++ more, ?_⟩
  rw [h.marketUpdates, hserves.queued, hq]
  simp

/-- The publisher encodes an update and sends it. -/
theorem send
    (h : Realized L clock n us b f) (hphase : f.phase = .idle)
    {u : MEMarketUpdate} {rest : List MEMarketUpdate}
    (hhead : f.marketUpdates = u :: rest) (hu : u.type.Incremental) :
    ∃ f', [FeedAction.encode (clock b.published.length), .send].foldlM
        (Feed.step L) f = .ok f' ∧
      Realized L clock n us { b with
        published := b.published ++ [(b.nextSeqNum, u)]
        publisherPhase := .push (b.nextSeqNum, u) } f' := by
  have hencode : f.step L (.encode (clock b.published.length)) = .ok { f with
      phase := .encoded
        (.make L (clock b.published.length) u f.nextSeqNum) } := by
    simp only [Feed.step, hphase, hhead]
  have hpos : (SnapshotUpdate.make L (clock b.published.length) u
      f.nextSeqNum).len > 0 :=
    List.length_pos_of_ne_nil (L.encode_ne_nil _ hu)
  generalize hsnap : SnapshotUpdate.make L (clock b.published.length) u
    f.nextSeqNum = snap at hencode hpos
  refine ⟨{ f.sendToIncrementalNetwork snap.bytes snap.len with
    phase := .sent snap }, ?_, ?_⟩
  · rw [List.foldlM_cons, hencode, ok_bind, List.foldlM_cons, Feed.step]
    dsimp only
    rw [if_pos hpos, ok_bind]
    rfl
  · refine ⟨h.marketUpdates, h.nextSeqNum, ?_, ?_, h.streamerUpdates, h.book,
      h.lastSeqNum⟩
    · show snap.entry = (b.nextSeqNum, u)
      rw [← hsnap, ← h.nextSeqNum]
      rfl
    · rw [datagrams_append_singleton, ← h.udp, ← h.nextSeqNum, hsnap, ← hsnap]
      rfl

/-- **A step of the publisher is a part of a schedule of the feed.** -/
theorem publisher
    {capacity : Nat} {run : Bool} (h : Realized L clock n us b f)
    (hserves : b.Serves sent) (hsent : sent <+: us)
    (hstep : b.publisher capacity run = some b') :
    ∃ (schedule : List FeedAction) (f' : Feed),
      schedule.foldlM (Feed.step L) f = .ok f' ∧
      Realized L clock n us b' f' := by
  have hmatches := h.phase
  unfold BackEnd.publisher at hstep
  cases hphase : b.publisherPhase with
  | test =>
      simp only [hphase, Option.some.injEq] at hstep
      subst hstep
      rw [hphase] at hmatches
      refine ⟨[], f, rfl, { h with phase := ?_ }⟩
      rw [hmatches.idle id]
      cases run with
      | true => trivial
      | false => trivial
  | poll =>
      rw [hphase] at hmatches
      cases hq : b.marketUpdateQ with
      | nil =>
          simp only [hphase, hq, Option.some.injEq] at hstep
          subst hstep
          refine ⟨[], f, rfl, { h with phase := ?_ }⟩
          rw [hmatches.idle id]
          trivial
      | cons u rest =>
          have hmem : u ∈ sent := by
            rw [hserves.queued, hq]
            simp
          have hu := hserves.incremental u hmem
          simp only [hphase, hq, if_pos hu, Option.some.injEq] at hstep
          obtain ⟨rest', hhead⟩ := h.head hserves hsent hq
          obtain ⟨f', hf', h'⟩ := h.send (hmatches.idle id) hhead hu
          exact ⟨_, f', hf', hstep ▸ h'.of_queue (u :: rest)⟩
  | push entry =>
      rw [hphase] at hmatches
      obtain ⟨snap, hsnap, hentry⟩ := hmatches.sent
      simp only [hphase] at hstep
      split_ifs at hstep
      obtain rfl := Option.some.inj hstep
      refine ⟨[.push], { f with
        streamerUpdates := f.streamerUpdates ++ [snap]
        phase := .pushed }, ?_, ?_⟩
      · rw [List.foldlM_cons, Feed.step, hsnap]
        rfl
      · refine { h with phase := trivial, streamerUpdates := ?_ }
        show (f.streamerUpdates ++ [snap]).map _ = b.streamerUpdates ++ [entry]
        rw [List.map_append, h.streamerUpdates, List.map_singleton, hentry]
  | advance =>
      rw [hphase] at hmatches
      have hfphase := hmatches.pushed
      simp only [hphase, Option.some.injEq] at hstep
      subst hstep
      have hne := hserves.sending (by rw [hphase]; trivial)
      obtain ⟨u, rest, hq⟩ := List.exists_cons_of_ne_nil hne
      refine ⟨[.advance], { f with
        marketUpdates := f.marketUpdates.tail
        nextSeqNum := (f.nextSeqNum + 1) % wordSize
        phase := .idle }, ?_, ?_⟩
      · rw [List.foldlM_cons, Feed.step, hfphase]
        rfl
      · refine ⟨?_, ?_, trivial, h.udp, h.streamerUpdates, h.book,
          h.lastSeqNum⟩
        · show f.marketUpdates.tail = _
          rw [h.marketUpdates, hq, List.tail_drop]
          simp
        · show (f.nextSeqNum + 1) % wordSize = _
          rw [h.nextSeqNum]
  | exited => simp only [hphase, reduceCtorEq] at hstep

/-- The shadow book has all tickers. -/
theorem length_book
    (h : Realized L clock n us b f) (hserves : b.Serves sent)
    (htickers : ∀ u ∈ sent, u.tickerId < n) :
    f.streamer.book.shadowBook.length = n := by
  have hrange : ∀ u ∈ b.streamed.map Prod.snd,
      u.tickerId < (ShadowBook.init n).shadowBook.length := by
    intro u hu
    obtain ⟨p, hp, rfl⟩ := List.mem_map.mp hu
    rw [ShadowBook.init, List.length_replicate]
    exact htickers _ (hserves.mem_of_published
      (hserves.streamed_published.subset hp))
  obtain ⟨book, hbook, hlen, -⟩ := ShadowBook.viewAt_foldlM_applyToBook hrange
  obtain rfl := Except.ok.inj (hbook.symm.trans h.book)
  rw [hlen, ShadowBook.init, List.length_replicate]

/-- **So is a step of the streamer.** -/
theorem streamer
    {run : Bool} (h : Realized L clock n us b f) (hserves : b.Serves sent)
    (htickers : ∀ u ∈ sent, u.tickerId < n)
    (hstep : b.streamer run = some b') :
    ∃ (schedule : List FeedAction) (f' : Feed),
      schedule.foldlM (Feed.step L) f = .ok f' ∧
      Realized L clock n us b' f' := by
  unfold BackEnd.streamer at hstep
  cases hphase : b.streamerPhase with
  | test =>
      simp only [hphase, Option.some.injEq] at hstep
      subst hstep
      exact ⟨[], f, rfl, { h with }⟩
  | drain =>
      cases hq : b.streamerUpdates with
      | nil =>
          simp only [hphase, hq, Option.some.injEq] at hstep
          subst hstep
          exact ⟨[], f, rfl, { h with streamerUpdates := hq ▸ h.streamerUpdates }⟩
      | cons entry rest =>
          simp only [hphase, hq, Option.some.injEq] at hstep
          subst hstep
          have hentries := h.streamerUpdates
          rw [hq, List.map_eq_cons_iff] at hentries
          obtain ⟨snap, rest', hqueue, rfl, hrest⟩ := hentries
          have hmem : snap.entry ∈ b.streamerUpdates := by
            rw [hq]
            exact List.mem_cons_self
          have hticker : snap.update.tickerId < n :=
            htickers _ (hserves.mem_of_streamerUpdates hmem)
          obtain ⟨book, hbook, -⟩ :=
            ShadowBook.applyToBook_ok (h.length_book hserves htickers) hticker
          refine ⟨[.drain], { f with
            streamerUpdates := rest'
            streamer := { { f.streamer with book := book }.writeReplayEntry
              snap with lastSeqNum := snap.seqNum } }, ?_, ?_⟩
          · rw [List.foldlM_cons, Feed.step, hqueue]
            dsimp only
            rw [SnapshotStreamer.drain, hbook]
            rfl
          · refine { h with streamerUpdates := hrest, book := ?_, lastSeqNum := ?_ }
            · show ((b.streamed ++ [snap.entry]).map Prod.snd).foldlM _ _ = _
              rw [List.map_append, List.foldlM_append, h.book, ok_bind,
                List.map_singleton, List.foldlM_cons]
              show (f.streamer.book.applyToBook snap.update >>= _) = _
              rw [hbook]
              rfl
            · show snap.seqNum = _
              rw [List.map_append]
              simp [SnapshotUpdate.entry]
  | exited => simp only [hphase, reduceCtorEq] at hstep

end Realized

end BackEnd

/-- Number and payload of a datagram. -/
def ofDatagram (d : List UInt8) : Nat × List UInt8 :=
  (readWord 8 d).getD (0, [])

namespace Subscriber

/-- The quotes are those of the orders that rest in the books. -/
def Mirrors {Q : Type} (n : Nat) (e : MatchingEngine MapLevels Q)
    (r : Subscriber) : Prop :=
  ∀ t, t < n → ∃ book, e.tickerOrderBook[t]? = some book ∧
    ∀ m x, r.state t m = some x ↔ book.Quotes m x

/-- A subscriber that has heard these datagrams, one after the other. -/
def listen (T : ItchTypes) (heard : List (List UInt8)) : Subscriber :=
  heard.foldl (hear T) ⟨0, fun _ _ => none⟩

/-- **Who hears every datagram in its turn misses nothing**, whatever else he
hears in between. -/
theorem seq_listen
    {T : ItchTypes} {n : Nat} {us : List MEMarketUpdate} {f : Feed}
    {E D : List SnapshotUpdate} (hwire : ∀ u ∈ us, OnWire u)
    (htickers : ∀ u ∈ us, u.tickerId < n)
    (hknown : ModifiesKnown (ShadowBook.init n) us)
    (hlen : us.length + 1 < wordSize)
    (hpublished : Feed.Published T.layout n us E D f)
    {heard : List (List UInt8)} (hheard : ∀ d ∈ heard, d ∈ f.udp)
    (hall : f.udp.Sublist heard) :
    (listen T heard).seq = f.udp.length := by
  obtain ⟨frames, hudp, hnumbers, hframes⟩ :=
    frames_of_published hwire htickers hknown hlen hpublished
  have hsplit : ∀ e ∈ frames,
      ofDatagram (toBigEndian 8 e.1 ++ e.2) = e := by
    intro e he
    rw [ofDatagram, readWord_toBigEndian 8 (hframes e he).1.1]
    rfl
  -- what is heard are frames of the feed
  have hmem : ∀ d ∈ heard, ofDatagram d ∈ frames ∧
      toBigEndian 8 (ofDatagram d).1 ++ (ofDatagram d).2 = d := by
    intro d hd
    have hsent := hheard d hd
    rw [hudp] at hsent
    obtain ⟨e, he, rfl⟩ := List.mem_map.mp hsent
    rw [hsplit e he]
    exact ⟨he, rfl⟩
  have hgenuine : ∀ e ∈ heard.map ofDatagram, e ∈ frames := by
    intro e he
    obtain ⟨d, hd, rfl⟩ := List.mem_map.mp he
    exact (hmem d hd).1
  have hlisten : listen T heard = Replica.offerAll T.receive
      ⟨0, fun _ _ => none⟩ (heard.map ofDatagram) := by
    rw [← foldl_hear fun e he => (hframes e (hgenuine e he)).1, List.map_map]
    have hid : heard.map ((fun e => toBigEndian 8 e.1 ++ e.2) ∘ ofDatagram) =
        heard.map id :=
      List.map_congr_left fun d hd => (hmem d hd).2
    rw [hid, List.map_id]
    rfl
  have hturns : (List.range' (0 + 1) f.udp.length).Sublist
      ((heard.map ofDatagram).map Prod.fst) := by
    have hframes' : f.udp.map ofDatagram = frames := by
      rw [hudp, List.map_map]
      have hid : frames.map (ofDatagram ∘
          fun e => toBigEndian 8 e.1 ++ e.2) = frames.map id :=
        List.map_congr_left hsplit
      rw [hid, List.map_id]
    have hsublist := (hall.map ofDatagram).map Prod.fst
    rwa [hframes', hnumbers] at hsublist
  have hstart : Replica.Follows (imageAfter us) f.udp.length
      (⟨0, fun _ _ => none⟩ : Subscriber) :=
    ⟨Nat.zero_le _, rfl⟩
  have hle := (hstart.offerAll fun e he =>
    (hframes e (hgenuine e he)).2).published
  have hge : 0 + f.udp.length ≤ (Replica.offerAll T.receive
      ⟨0, fun _ _ => none⟩ (heard.map ofDatagram)).seq :=
    Replica.le_seq_offerAll hturns (Nat.le_refl _)
  rw [hlisten]
  omega

end Subscriber

namespace Pipeline

section Processor

variable {σ : Type} {c : Capacities} {P : Processor σ} {S : StdSort}
variable {s s' : Pipeline σ} {L : ItchLayout} {clock : Nat → Nat} {n : Nat}
  {us : List MEMarketUpdate} {ring : Nat → ReplayEntry}

/-- Some schedule takes the feed of the updates to where publisher and streamer
are. -/
def Broadcasts (L : ItchLayout) (clock : Nat → Nat) (n : Nat)
    (us : List MEMarketUpdate) (ring : Nat → ReplayEntry) (s : Pipeline σ) :
    Prop :=
  s.sent.filterMap Output.update? <+: us → ∃ schedule f,
    Feed.run L n ring us schedule = .ok f ∧ s.back.Realized L clock n us f

theorem Broadcasts.engine
    (h : s.Broadcasts L clock n us ring) (hstep : EngineStep c P s s') :
    s'.Broadcasts L clock n us ring := by
  intro hsent
  cases hstep with
  | test hphase => exact h hsent
  | idle hphase hq => exact h hsent
  | begin r rest hphase hq => exact h hsent
  | finish hphase => exact h hsent
  | respond resp outs hphase hroom =>
      rw [List.filterMap_append] at hsent
      exact h ((List.prefix_append _ _).trans hsent)
  | publish u outs hphase hroom =>
      rw [List.filterMap_append] at hsent
      obtain ⟨schedule, f, hf, hrealized⟩ :=
        h ((List.prefix_append _ _).trans hsent)
      exact ⟨schedule, f, hf, hrealized.of_queue _⟩

theorem Broadcasts.step
    {a : ThreadAction} (htickers : ∀ u ∈ us, u.tickerId < n)
    (h : s.Broadcasts L clock n us ring) (hconsistent : s.Consistent P)
    (hstep : s.step c P S a = some s') :
    s'.Broadcasts L clock n us ring := by
  -- a run of the feed, continued by what matches the step
  have hextend : ∀ {b : BackEnd}, (∀ f, s.back.Realized L clock n us f →
      s.sent.filterMap Output.update? <+: us →
        ∃ (schedule : List FeedAction) (f' : Feed),
          schedule.foldlM (Feed.step L) f = .ok f' ∧
          b.Realized L clock n us f') →
      Broadcasts L clock n us ring { s with back := b } := by
    intro b hb hsent
    obtain ⟨schedule, f, hf, hrealized⟩ := h hsent
    obtain ⟨more, f', hf', hrealized'⟩ := hb f hrealized hsent
    refine ⟨schedule ++ more, f', ?_, hrealized'⟩
    unfold Feed.run at hf ⊢
    rw [List.foldlM_append, hf, ok_bind, hf']
  cases a with
  | engine => exact h.engine (.of_engine hstep)
  | main =>
      obtain ⟨m, rfl⟩ := mainThread_eq hstep
      exact h
  | gateway | recv x | recvFinished =>
      obtain ⟨front, -, rfl⟩ := Option.map_eq_some_iff.mp hstep
      exact h
  | publisher =>
      obtain ⟨b, hb, rfl⟩ := Option.map_eq_some_iff.mp hstep
      exact hextend fun f hrealized hsent =>
        hrealized.publisher hconsistent.back hsent hb
  | streamer =>
      obtain ⟨b, hb, rfl⟩ := Option.map_eq_some_iff.mp hstep
      exact hextend fun f hrealized hsent =>
        hrealized.streamer hconsistent.back
          (fun u hu => htickers u (hsent.subset hu)) hb

theorem Reachable.broadcasts
    {fifoPending : Nat} (htickers : ∀ u ∈ us, u.tickerId < n)
    (hreach : Reachable c P S fifoPending s) :
    s.Broadcasts L clock n us ring :=
  (run_induction (Broadcasts L clock n us ring)
    (fun _ _ _ hinv _ h hstep => h.step htickers hinv.1 hstep) hreach
    (init_invariants fifoPending)
    (fun _ => ⟨[], _, rfl, BackEnd.Realized.init ring⟩)).2

end Processor

end Pipeline

namespace MatchingEngine

variable {Lv P : Type} [LevelTable Lv] [BookImpl Lv] [ObliviousBook Lv]
  [ObjectPool P]

/-- The engine takes requests of its tickers only, and sends messages about
these. -/
theorem run_about
    {n poolSize : Nat} {rs : List MEClientRequest} {e : MatchingEngine Lv P}
    (he : run Lv P n poolSize rs = .ok e) :
    e.tickerOrderBook.length = n ∧ TickersInRange n rs ∧
      ∀ o ∈ e.channel.outputs, ∃ t < n, o.About t := by
  induction rs using List.reverseRecOn generalizing e with
  | nil =>
      obtain rfl := Except.ok.inj he
      exact ⟨List.length_replicate, nofun, nofun⟩
  | append_singleton rs r ih =>
      obtain ⟨e₀, he₀, hlast⟩ := foldlM_append_ok he
      have hstep : e₀.processClientRequest r = .ok e := by
        simpa using hlast
      obtain ⟨hlen, hrange, habout⟩ := ih he₀
      have hticker : r.tickerId < n := hlen ▸ tickerId_lt_of_ok hstep
      obtain ⟨last, -, -, houtputs, hnew⟩ := processClientRequest_flush hstep
      obtain ⟨b, b', ds, -, -, -, rfl⟩ := processClientRequest_cases hstep
      refine ⟨by rw [List.length_set, hlen], fun r' hr' => ?_, fun o ho => ?_⟩
      · rcases List.mem_append.mp hr' with hr' | hr'
        · exact hrange r' hr'
        · obtain rfl := List.mem_singleton.mp hr'
          exact hticker
      · rw [houtputs, List.mem_append] at ho
        rcases ho with ho | ho
        · exact habout o ho
        · exact ⟨r.tickerId, hticker, hnew o ho⟩

theorem run_engineUpdate
    {n poolSize : Nat} {rs : List MEClientRequest} {e : MatchingEngine Lv P}
    (he : run Lv P n poolSize rs = .ok e) :
    ∀ u ∈ e.channel.updates, EngineUpdate n u := by
  intro u hu
  obtain ⟨o, ho, hupdate⟩ := List.mem_filterMap.mp hu
  obtain ⟨t, ht, habout⟩ := (run_about he).2.2 o ho
  cases o with
  | response resp => cases hupdate
  | update v =>
      obtain rfl := Option.some.inj hupdate
      obtain ⟨rfl, hincremental⟩ := habout
      exact ⟨hincremental, ht⟩

end MatchingEngine

namespace Pipeline

section Engine

variable {Lv Q : Type} [LevelTable Lv] [BookImpl Lv] [ObliviousBook Lv]
  [ObjectPool Q] {n poolSize fifoPending : Nat} {c : Capacities} {S : StdSort}

open MatchingEngine (processor)

/-- Some schedule of the feed of what the engine sends leads to where publisher
and streamer are. -/
theorem Reachable.realized
    (L : ItchLayout) (clock : Nat → Nat) (ring : Nat → ReplayEntry)
    {s : Pipeline (Except Fault (MatchingEngine Lv Q))}
    (hreach : Reachable c (processor Lv Q n poolSize) S fifoPending s)
    {e : MatchingEngine Lv Q}
    (he : MatchingEngine.run Lv Q n poolSize s.front.accepted = .ok e) :
    ∃ schedule f, Feed.run L n ring e.channel.updates schedule = .ok f ∧
      s.back.Realized L clock n e.channel.updates f := by
  obtain ⟨hconsistent, -⟩ := hreach.sound
  have hsent := (hconsistent.sent_outputs List.prefix_rfl he).filterMap
    Output.update?
  have hbroadcasts : s.Broadcasts L clock n e.channel.updates ring :=
    hreach.broadcasts fun u hu =>
      (MatchingEngine.run_engineUpdate he u hu).ticker
  exact hbroadcasts hsent

/-- **Publisher and streamer do what the feed does.**  Whatever the schedule of
the threads, the capacities of the queues and the times at which the publisher
reads the clock, some schedule of the feed of what the engine sends leads to
the same datagrams, the same queue to the streamer and the same shadow book, and
it is done when the threads have settled. -/
theorem threads_publish_feed
    (L : ItchLayout) (clock : Nat → Nat) (ring : Nat → ReplayEntry)
    {s : Pipeline (Except Fault (MatchingEngine Lv Q))}
    (hreach : Reachable c (processor Lv Q n poolSize) S fifoPending s)
    {e : MatchingEngine Lv Q}
    (he : MatchingEngine.run Lv Q n poolSize s.front.accepted = .ok e) :
    ∃ schedule f, Feed.run L n ring e.channel.updates schedule = .ok f ∧
      s.back.Realized L clock n e.channel.updates f ∧
      (s.Settled → f.Settled []) := by
  obtain ⟨schedule, f, hf, hrealized⟩ := hreach.realized L clock ring he
  obtain ⟨hconsistent, -⟩ := hreach.sound
  refine ⟨schedule, f, hf, hrealized, fun hsettled => ?_⟩
  have hidle : ¬ s.back.publisherPhase.Sending :=
    fun hsending => hconsistent.back.sending hsending hsettled.marketUpdateQ
  have hqueue := hrealized.streamerUpdates
  rw [hsettled.streamerUpdates, List.map_eq_nil_iff] at hqueue
  refine ⟨hrealized.phase.idle hidle, hqueue, ?_⟩
  have htaken := hconsistent.back.queued
  rw [hsettled.marketUpdateQ, List.append_nil,
    (hconsistent.sent_settled hsettled he).2] at htaken
  rw [hrealized.marketUpdates, ← htaken]
  exact List.drop_length

/-- An order that comes to rest. -/
def restingOrder : MEClientRequest :=
  { soleOrder with type := .goodTillCancel }

/-- The order is entered, published and streamed. -/
theorem exists_settled :
    ∃ (s : Pipeline (Except Fault (MatchingEngine MapLevels ScanPool)))
      (e : MatchingEngine MapLevels ScanPool),
      Reachable ⟨1, 1, 1, 1⟩ (MatchingEngine.mapProcessor 16)
        Surroundings.roomy.stdSort 10000 s ∧
      MatchingEngine.run MapLevels ScanPool 4 16 s.front.accepted = .ok e ∧
      s.Settled ∧ s.front.accepted = [restingOrder] ∧
      s.back.published.length = 1 ∧ e.channel.updates.length = 1 :=
  ⟨_, _, Steps.of_follow [.gateway, .gateway, .gateway,
    .recv ⟨1, restingOrder, []⟩, .recvFinished, .gateway, .gateway, .gateway,
    .engine, .engine, .engine, .engine, .engine,
    .publisher, .publisher, .publisher, .publisher, .streamer, .streamer,
    .gateway, .gateway] rfl, rfl, ⟨rfl, rfl, rfl, rfl, rfl, nofun⟩, rfl, rfl,
    rfl⟩

theorem threads_publish_feed_example :
    ∃ (s : Pipeline (Except Fault (MatchingEngine MapLevels ScanPool)))
      (e : MatchingEngine MapLevels ScanPool),
      s.Settled ∧ s.back.published.length = 1 ∧
      ∃ schedule f, Feed.run ItchLayout.packed 4 (fun _ => ⟨[], [], 0⟩)
          e.channel.updates schedule = .ok f ∧
        s.back.Realized ItchLayout.packed id 4 e.channel.updates f ∧
        f.Settled [] := by
  obtain ⟨s, e, hreach, he, hsettled, -, hpublished, -⟩ := exists_settled
  obtain ⟨schedule, f, hf, hrealized, hdone⟩ :=
    threads_publish_feed ItchLayout.packed id (fun _ => ⟨[], [], 0⟩) hreach he
  exact ⟨s, e, hsettled, hpublished, schedule, f, hf, hrealized,
    hdone hsettled⟩

/-- Whoever listens behind the threads has the quotes of the books of the
engine. -/
theorem Reachable.informs
    (T : ItchTypes) (clock : Nat → Nat) (hn : n ≤ 2 ^ 16)
    {s : Pipeline (Except Fault (MatchingEngine MapLevels Q))}
    (hreach : Reachable c (processor MapLevels Q n poolSize) S fifoPending s)
    (hfresh : FreshKeys s.front.accepted)
    (hlen : s.front.accepted.length < 2 ^ 63)
    (hnarrow : ∀ r ∈ s.front.accepted, r.Narrow)
    (hwhole : MatchingEngine.EachStep MapLevels Q n poolSize OrderBook.Whole
      s.front.accepted)
    {e : MatchingEngine MapLevels Q}
    (he : MatchingEngine.run MapLevels Q n poolSize s.front.accepted = .ok e)
    (hupdates : e.channel.updates.length + 1 < wordSize)
    {heard : List (List UInt8)}
    (hheard : ∀ d ∈ heard, d ∈ datagrams T.layout clock s.back.published) :
    (∀ pre post e', s.front.accepted = pre ++ post →
      MatchingEngine.run MapLevels Q n poolSize pre = .ok e' →
      (Subscriber.listen T heard).seq = e'.channel.updates.length →
      (Subscriber.listen T heard).Mirrors n e') ∧
    ((datagrams T.layout clock s.back.published).Sublist heard →
      (Subscriber.listen T heard).seq = s.back.published.length ∧
      (s.Settled → (Subscriber.listen T heard).Mirrors n e)) := by
  obtain ⟨-, htickers, -⟩ := MatchingEngine.run_about he
  obtain ⟨hwire, hrange, hknown⟩ :=
    publishable_of_run Q hn poolSize hfresh hlen htickers hnarrow hwhole he
  obtain ⟨schedule, f, hf, hrealized⟩ :=
    hreach.realized T.layout clock (fun _ => ⟨[], [], 0⟩) he
  rw [← hrealized.udp] at hheard ⊢
  -- the subscriber as a part of a session
  have hfeed : Session.Runs T (replayCapacity + 1)
      (Session.init n (fun _ => ⟨[], [], 0⟩) e.channel.updates)
      { Session.init n (fun _ => ⟨[], [], 0⟩) e.channel.updates with
        service := { SnapshotService.init n (fun _ => ⟨[], [], 0⟩)
          e.channel.updates with feed := f } } :=
    Session.Runs.feed hf
  have hruns := hfeed.trans (Session.Runs.hear hheard)
  have hquotes : ∀ pre post e', s.front.accepted = pre ++ post →
      MatchingEngine.run MapLevels Q n poolSize pre = .ok e' →
      (Subscriber.listen T heard).seq = e'.channel.updates.length →
      (Subscriber.listen T heard).Mirrors n e' := fun pre post e' hsplit he'
        hseq =>
    subscriber_sees_books T Q hn poolSize hfresh hlen htickers hnarrow hwhole
      he hupdates _ (Nat.lt_succ_self _) hruns hsplit he' hseq
  refine ⟨hquotes, fun hall => ?_⟩
  have hword : e.channel.updates.length < wordSize :=
    Nat.lt_of_succ_lt hupdates
  obtain ⟨f', hf', E, D, hpublished⟩ := Feed.Published.run (L := T.layout)
    (MatchingEngine.run_engineUpdate he) hword (fun _ => ⟨[], [], 0⟩) schedule
  obtain rfl := Except.ok.inj (hf.symm.trans hf')
  have hseq :=
    Subscriber.seq_listen hwire hrange hknown hupdates hpublished hheard hall
  have hlast : (Subscriber.listen T heard).seq = s.back.published.length := by
    rw [hseq, hrealized.udp, datagrams, List.length_mapIdx]
  refine ⟨hlast, fun hsettled => ?_⟩
  obtain ⟨hconsistent, -⟩ := hreach.sound
  obtain ⟨-, -, hdone, -⟩ := hconsistent.settled hsettled he
  refine hquotes s.front.accepted [] e (List.append_nil _).symm he ?_
  rw [hlast, hdone, numbered, List.length_mapIdx]

end Engine

end Pipeline

end NanoExchange
