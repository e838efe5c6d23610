import NanoExchange.Network.Snapshot
import NanoExchange.Network.Subscriber
import NanoExchange.Network.Replay
import Mathlib.Data.Finset.Sort

/-!
# Snapshots are fresh and complete

A snapshot is a START, for each ticker a CLEAR and its Add Orders, and an END.
`SnapshotService.snapshot_fresh_and_complete` says that in every schedule of
the two threads and of snapshot requests the bytes that are sent are a snapshot
of the book after the updates that the streamer has handled, under the sequence
number of the last one.

The invariant on the buffer is that it holds such a snapshot unless it is empty
or the book is dirty.  Every update that the streamer handles makes the book
dirty, so the buffer is allowed to be stale exactly when it is baked again.

Nothing bounds the stream: `last_seq_num_` counts modulo `2 ^ 64`.
-/

namespace NanoExchange

open Lib

/-- What the shadow book keeps under a market order id. -/
structure Listed (t : TickerId) (m : OrderId) (u : MEMarketUpdate) : Prop where
  tickerId : u.tickerId = t
  marketOrderId : u.marketOrderId = m
  price : u.price < 2 ^ 32
  qty : u.qty < 2 ^ 32
  id : m < 2 ^ 64

namespace ShadowBook

/-- Every entry has the property `Q`. -/
def Entries (Q : TickerId → OrderId → MEMarketUpdate → Prop)
    (b : ShadowBook) : Prop :=
  ∀ t orders m u, b.shadowBook[t]? = some orders →
    orders.lookup m = some u → Q t m u

section Entries

variable {Q : TickerId → OrderId → MEMarketUpdate → Prop} {b b' : ShadowBook}

theorem Entries.init (n : Nat) : Entries Q (init n) := by
  intro t orders m u ho hu
  rw [ShadowBook.init, List.getElem?_replicate] at ho
  split at ho
  · obtain rfl := Option.some.inj ho
    simp at hu
  · cases ho

theorem Entries.modifyAt
    {t : TickerId} {g : ShadowMap → ShadowMap} (h : Entries Q b)
    (hb' : b.modifyAt t g = .ok b')
    (hg : ∀ orders m u, b.shadowBook[t]? = some orders →
      (g orders).lookup m = some u → Q t m u) :
    Entries Q b' := by
  unfold ShadowBook.modifyAt at hb'
  split at hb'
  · cases hb'
  · rename_i orders ho
    obtain rfl := Except.ok.inj hb'
    intro t' orders' m u ho' hu
    dsimp only at ho'
    rw [List.getElem?_set] at ho'
    split at ho'
    · rename_i ht
      subst ht
      split at ho'
      · obtain rfl := Option.some.inj ho'
        exact hg orders m u ho hu
      · cases ho'
    · exact h t' orders' m u ho' hu

/-- **What an update writes into the book**: itself, under one id or the
other, or an old entry with less quantity. -/
theorem Entries.applyToBook
    {u : MEMarketUpdate} (h : Entries Q b) (hb' : b.applyToBook u = .ok b')
    (hadd : u.type = .add → Q u.tickerId u.marketOrderId u)
    (hmodify : u.type = .modify → Q u.tickerId u.newOrderId (replacement u))
    (hfill : ∀ order, Q u.tickerId u.marketOrderId order →
      Q u.tickerId u.marketOrderId { order with qty := order.qty - u.qty }) :
    Entries Q b' := by
  have herased : ∀ orders m x, b.shadowBook[u.tickerId]? = some orders →
      (orders.erase u.marketOrderId).lookup m = some x →
      Q u.tickerId m x := by
    intro orders m x ho hx
    by_cases hm : m = u.marketOrderId
    · subst hm
      simp at hx
    · rw [Finmap.lookup_erase_ne hm] at hx
      exact h _ _ _ _ ho hx
  unfold ShadowBook.applyToBook at hb'
  cases htype : u.type with
  | add =>
      simp only [htype] at hb'
      refine h.modifyAt hb' fun orders m x ho hx => ?_
      by_cases hm : m = u.marketOrderId
      · subst hm
        rw [Finmap.lookup_insert] at hx
        obtain rfl := Option.some.inj hx
        exact hadd htype
      · rw [Finmap.lookup_insert_of_ne _ hm] at hx
        exact h _ _ _ _ ho hx
  | cancel =>
      simp only [htype] at hb'
      exact h.modifyAt hb' herased
  | modify =>
      simp only [htype] at hb'
      refine h.modifyAt hb' fun orders m x ho hx => ?_
      by_cases hnew : m = u.newOrderId
      · subst hnew
        rw [Finmap.lookup_insert] at hx
        obtain rfl := Option.some.inj hx
        exact hmodify htype
      · rw [Finmap.lookup_insert_of_ne _ hnew] at hx
        exact herased orders m x ho hx
  | trade =>
      simp only [htype] at hb'
      split at hb'
      · cases hb'
      · rename_i orders ho
        split at hb'
        · rename_i order horder
          refine h.modifyAt hb' fun orders' m x ho' hx => ?_
          obtain rfl := Option.some.inj (ho.symm.trans ho')
          unfold fill at hx
          split at hx
          · exact herased orders m x ho hx
          · by_cases hm : m = u.marketOrderId
            · subst hm
              rw [Finmap.lookup_insert] at hx
              obtain rfl := Option.some.inj hx
              exact hfill order (h _ _ _ _ ho horder)
            · rw [Finmap.lookup_insert_of_ne _ hm] at hx
              exact h _ _ _ _ ho hx
        · obtain rfl := Except.ok.inj hb'
          exact h
  | snapshotStart | clear | snapshotEnd =>
      simp only [htype] at hb'
      obtain rfl := Except.ok.inj hb'
      exact h

end Entries

/-- Every entry has its own key and ticker, and fits into an Add Order. -/
def Sound (b : ShadowBook) : Prop :=
  ∀ t orders m u, b.shadowBook[t]? = some orders →
    orders.lookup m = some u → Listed t m u

theorem Sound.init (n : Nat) : Sound (init n) :=
  Entries.init n

theorem dirty_modifyAt
    {b b' : ShadowBook} {t : TickerId} {g : ShadowMap → ShadowMap}
    (hb' : b.modifyAt t g = .ok b') : b'.dirty = true := by
  unfold ShadowBook.modifyAt at hb'
  split at hb'
  · cases hb'
  · obtain rfl := Except.ok.inj hb'
    rfl

/-- An incremental update makes the book dirty. -/
theorem dirty_applyToBook
    {b b' : ShadowBook} {u : MEMarketUpdate} (hu : u.type.Incremental)
    (hb' : b.applyToBook u = .ok b') : b'.dirty = true := by
  unfold ShadowBook.applyToBook at hb'
  cases htype : u.type with
  | add | cancel | modify =>
      simp only [htype] at hb'
      exact dirty_modifyAt hb'
  | trade =>
      simp only [htype] at hb'
      split at hb'
      · cases hb'
      · split at hb'
        · exact dirty_modifyAt hb'
        · obtain rfl := Except.ok.inj hb'
          rfl
  | snapshotStart | clear | snapshotEnd =>
      rw [htype] at hu
      exact hu.elim

/-- An update that fits leaves such entries behind, and makes the book
dirty. -/
theorem Sound.applyToBook
    {b b' : ShadowBook} {u : MEMarketUpdate} (h : Sound b) (hu : OnWire u)
    (hb' : b.applyToBook u = .ok b') :
    Sound b' ∧ b'.dirty = true := by
  refine ⟨Entries.applyToBook (Q := Listed) h hb' ?_ ?_ ?_,
    dirty_applyToBook hu.incremental hb'⟩
  · exact fun _ => ⟨rfl, rfl, hu.price, hu.qty, hu.marketOrderId⟩
  · exact fun _ => ⟨rfl, rfl, hu.price, hu.qty, hu.newOrderId⟩
  · intro order hlisted
    exact ⟨hlisted.tickerId, hlisted.marketOrderId, hlisted.price,
      Nat.lt_of_le_of_lt (Nat.sub_le _ _) hlisted.qty, hlisted.id⟩

end ShadowBook

/-- The Add Orders of ticker `t` say the quotes `f`, each order once. -/
structure ListsQuotes (t : TickerId) (f : Quotes) (ms : List ItchMessage) :
    Prop where
  adds : ∀ m ∈ ms, ∃ header ref buySell shares stock price,
    m = .addOrder header ref buySell shares stock price ∧
      header.stockLocate = t
  nodup : (ms.map ItchMessage.orderRefNum).Nodup
  decoded : ms.foldl ItchMessage.apply (fun _ => none) = f

/-- CLEAR and the Add Orders of a ticker. -/
def IsSection (t : TickerId) (f : Quotes) (ms : List ItchMessage) : Prop :=
  ∃ now adds, ms = ctrlMessage now snapCtrlClear t :: adds ∧
    ListsQuotes t f adds

/-- START, the sections of all tickers in order, END. -/
def IsSnapshot (maxTickers seqNum : Nat) (F : TickerId → Quotes)
    (ms : List ItchMessage) : Prop :=
  ∃ start stop sections,
    ms = ctrlMessage start snapCtrlStart seqNum :: sections.flatten ++
      [ctrlMessage stop snapCtrlEnd seqNum] ∧
    List.Forall₂ (fun t ms => IsSection t (F t) ms)
      (List.range maxTickers) sections

theorem fits_ctrlMessage
    {now code value : Nat} (hcode : code < 2 ^ 16) (hvalue : value < 2 ^ 64) :
    (ctrlMessage now code value).Fits :=
  ⟨⟨hcode, Nat.two_pow_pos 16, Nat.mod_lt _ (by decide)⟩, hvalue⟩

namespace Listed

variable {t : TickerId} {m : OrderId} {u : MEMarketUpdate}

/-- The Add Order of an entry. -/
theorem addOrder
    (h : Listed t m u) (ht : t < 2 ^ 16) (now : Nat) :
    ∃ msg, itchMessage now { u with type := .add } = some msg ∧ msg.Fits ∧
      (∃ header ref buySell shares stock price,
        msg = .addOrder header ref buySell shares stock price ∧
          header.stockLocate = t) ∧
      msg.orderRefNum = m ∧
      ∀ f : Quotes, msg.apply f = Function.update f m (some u.quote) := by
  have hticker : u.tickerId < 2 ^ 16 := h.tickerId ▸ ht
  refine ⟨_, rfl, ?_, ⟨_, _, _, _, _, _, rfl, ?_⟩, h.marketOrderId,
    fun f => ?_⟩
  · exact ⟨itchHeader_fits _ _, h.marketOrderId ▸ h.id,
      Nat.mod_lt _ (by decide), hticker.trans (by decide),
      Nat.mod_lt _ (by decide)⟩
  · rw [← h.tickerId]
    exact Nat.mod_eq_of_lt hticker
  · have hqty := Nat.mod_eq_of_lt h.qty
    have hprice := Nat.mod_eq_of_lt h.price
    cases hside : u.side <;>
      simp [-Nat.reducePow, ItchMessage.apply, sideOfIndicator, hqty, hprice,
        hside, h.marketOrderId, MEMarketUpdate.quote]

end Listed

section Bake

variable (L : ItchLayout) (clock : Nat → Nat) {t : TickerId}

/-- The inner loop appends one Add Order for each entry. -/
theorem foldl_appendOrder
    (ht : t < 2 ^ 16) {entries : List (OrderId × MEMarketUpdate)}
    (hentries : ∀ e ∈ entries, Listed t e.1 e.2) (buf : List UInt8) :
    ∃ adds : List ItchMessage, entries.foldl (appendOrder L clock) buf =
        buf ++ adds.flatMap L.bytes ∧
      (∀ m ∈ adds, m.Fits) ∧
      (∀ m ∈ adds, ∃ header ref buySell shares stock price,
        m = .addOrder header ref buySell shares stock price ∧
          header.stockLocate = t) ∧
      adds.map ItchMessage.orderRefNum = entries.map Prod.fst ∧
      ∀ f : Quotes, adds.foldl ItchMessage.apply f =
        (entries.map fun e => (e.1, e.2.quote)).foldl
          (fun (f : Quotes) e => Function.update f e.1 (some e.2)) f := by
  induction entries generalizing buf with
  | nil => exact ⟨[], by simp⟩
  | cons e entries ih =>
      obtain ⟨msg, hmsg, hfits, hadd, href, happly⟩ :=
        (hentries e List.mem_cons_self).addOrder ht (clock buf.length)
      have happend : appendOrder L clock buf e = buf ++ L.bytes msg := by
        have hpos : (L.bytes msg).length > 0 :=
          List.length_pos_of_ne_nil (L.nonempty msg)
        simp only [appendOrder, ItchLayout.encode, hmsg, if_pos hpos]
      obtain ⟨adds, hbuf, hfits', hadds, hrefs, hfold⟩ :=
        ih (fun e he => hentries e (List.mem_cons_of_mem _ he))
          (buf ++ L.bytes msg)
      refine ⟨msg :: adds, ?_, ?_, ?_, ?_, fun f => ?_⟩
      · rw [List.foldl_cons, happend, hbuf, List.flatMap_cons,
          List.append_assoc]
      · exact List.forall_mem_cons.mpr ⟨hfits, hfits'⟩
      · exact List.forall_mem_cons.mpr ⟨hadd, hadds⟩
      · rw [List.map_cons, List.map_cons, href, hrefs]
      · rw [List.foldl_cons, happly, hfold, List.map_cons, List.foldl_cons]

/-- Whatever the order of the iteration, the entries give the map. -/
theorem Iteration.foldl_entries
    (it : Iteration) (t : TickerId) (orders : ShadowMap) :
    ((it.entries t orders).map fun e => (e.1, e.2.quote)).foldl
        (fun (f : Quotes) e => Function.update f e.1 (some e.2))
        (fun _ => none) =
      ShadowBook.view orders := by
  have hkeys : ((it.entries t orders).map fun e =>
      (e.1, e.2.quote)).map Prod.fst = (it.entries t orders).map Prod.fst := by
    rw [List.map_map]
    rfl
  funext m
  refine Option.ext fun x => ?_
  rw [foldl_update_eq_some_iff (hkeys ▸ it.nodup t orders)]
  simp only [ShadowBook.view, List.mem_map, Prod.exists, Prod.mk.injEq,
    it.mem, Option.map_eq_some_iff, reduceCtorEq, and_false, or_false]
  constructor
  · rintro ⟨m', u, hu, rfl, rfl⟩
    exact ⟨u, hu, rfl⟩
  · rintro ⟨u, hu, rfl⟩
    exact ⟨m, u, hu, rfl, rfl⟩

/-- The outer loop appends the section of a ticker. -/
theorem appendTicker_section
    {b : ShadowBook} (hb : b.Sound) (it : Iteration) (ht : t < 2 ^ 16)
    (hlen : t < b.shadowBook.length) (buf : List UInt8) :
    ∃ ms : List ItchMessage, appendTicker L clock it b.shadowBook buf t =
        .ok (buf ++ ms.flatMap L.bytes) ∧
      (∀ m ∈ ms, m.Fits) ∧ IsSection t (b.viewAt t) ms := by
  have ho := List.getElem?_eq_getElem hlen
  have hlisted : ∀ e ∈ it.entries t b.shadowBook[t], Listed t e.1 e.2 :=
    fun e he => hb t _ _ _ ho ((it.mem t _ e.1 e.2).mp he)
  obtain ⟨adds, hbuf, hfits, hadds, hrefs, hfold⟩ :=
    foldl_appendOrder L clock ht hlisted
      (appendCtrl L clock snapCtrlClear t buf)
  refine ⟨ctrlMessage (clock buf.length) snapCtrlClear t :: adds, ?_, ?_,
    clock buf.length, adds, rfl, hadds, ?_, ?_⟩
  · rw [appendTicker, ho]
    dsimp only
    rw [hbuf, appendCtrl, List.flatMap_cons, List.append_assoc]
  · exact List.forall_mem_cons.mpr
      ⟨fits_ctrlMessage (by decide) (ht.trans (by decide)), hfits⟩
  · rw [hrefs]
    exact it.nodup t _
  · rw [hfold, it.foldl_entries, ShadowBook.viewAt_of_getElem? ho]

theorem foldlM_appendTicker
    {b : ShadowBook} (hb : b.Sound) (it : Iteration) {tickers : List TickerId}
    (htickers : ∀ t ∈ tickers, t < 2 ^ 16 ∧ t < b.shadowBook.length)
    (buf : List UInt8) :
    ∃ sections : List (List ItchMessage),
      tickers.foldlM (appendTicker L clock it b.shadowBook) buf =
        .ok (buf ++ sections.flatten.flatMap L.bytes) ∧
      (∀ m ∈ sections.flatten, m.Fits) ∧
      List.Forall₂ (fun t ms => IsSection t (b.viewAt t) ms)
        tickers sections := by
  induction tickers generalizing buf with
  | nil => exact ⟨[], by simp [pure, Except.pure], by simp, .nil⟩
  | cons t tickers ih =>
      obtain ⟨ht, hlen⟩ := htickers t List.mem_cons_self
      obtain ⟨ms, hms, hfits, hsection⟩ :=
        appendTicker_section L clock hb it ht hlen buf
      obtain ⟨sections, hbuf, hfits', hsections⟩ :=
        ih (fun t ht => htickers t (List.mem_cons_of_mem _ ht))
          (buf ++ ms.flatMap L.bytes)
      refine ⟨ms :: sections, ?_, ?_, .cons hsection hsections⟩
      · rw [List.foldlM_cons, hms, ok_bind, hbuf, List.flatten_cons,
          List.flatMap_append, List.append_assoc]
      · intro m hm
        rcases List.mem_append.mp hm with hm | hm
        · exact hfits m hm
        · exact hfits' m hm

end Bake

namespace Feed

/-- The entries that the streamer has not yet handled. -/
def queued (f : Feed) : List SnapshotUpdate :=
  f.streamerUpdates ++ f.phase.inHand

/-- The updates of the engine that the streamer has not yet handled. -/
def underWay (f : Feed) : List MEMarketUpdate :=
  f.queued.map (·.update) ++ f.unsent

/-- The publisher's 64-bit sequence number after `k` entries, and the entry it
is about to send. -/
def Counts (L : ItchLayout) (k : Nat) (f : Feed) : Prop :=
  match f.phase with
  | .idle => f.nextSeqNum = (k + 1) % wordSize
  | .encoded snap =>
      f.nextSeqNum = (k + 1) % wordSize ∧
        ∃ now u rest, f.marketUpdates = u :: rest ∧
          snap = .make L now u f.nextSeqNum
  | .sent _ | .pushed => f.nextSeqNum = k % wordSize

/-- The streamer has handled the first `k` updates of `us`, and the entries on
their way to it have the numbers after `k`. -/
structure Numbered (L : ItchLayout) (us : List MEMarketUpdate) (k : Nat)
    (f : Feed) : Prop where
  stream : us = us.take k ++ f.underWay
  handled : k ≤ us.length
  numbers : Along (fun pre snap =>
    snap.seqNum = (k + pre.length + 1) % wordSize) f.queued
  counts : f.Counts L (k + f.queued.length)

namespace Numbered

variable {L : ItchLayout} {us : List MEMarketUpdate} {k : Nat} {f : Feed}

theorem init (n : Nat) (ring : Nat → ReplayEntry) :
    Numbered L us 0 (Feed.init n ring us) where
  stream := rfl
  handled := Nat.zero_le _
  numbers := along_nil
  counts := rfl

/-- The steps of the publisher. -/
theorem publish
    (hus : ∀ u ∈ us, u.type.Incremental) (h : Numbered L us k f)
    {a : FeedAction} (ha : a ≠ .drain) :
    ∃ f', f.step L a = .ok f' ∧ f'.streamer = f.streamer ∧
      Numbered L us k f' := by
  have hstream := h.stream
  have hnumbers := h.numbers
  have hcounts := h.counts
  cases a with
  | encode now =>
      rw [step]
      split
      · rename_i u rest hphase hupdates
        simp only [underWay, queued, unsent, Counts, hphase, Phase.inHand]
          at hstream hnumbers hcounts
        exact ⟨_, rfl, rfl, hstream, h.handled, hnumbers, hcounts, now, u,
          rest, hupdates, rfl⟩
      · exact ⟨f, rfl, rfl, h⟩
  | send =>
      rw [step]
      split
      · rename_i snap hphase
        simp only [underWay, queued, unsent, Counts, hphase, Phase.inHand,
          List.append_nil] at hstream hnumbers hcounts
        obtain ⟨hnext, now, u, rest, hupdates, rfl⟩ := hcounts
        have hu : u ∈ us := by
          rw [hstream, hupdates]
          simp
        have hpos : (SnapshotUpdate.make L now u f.nextSeqNum).len > 0 :=
          List.length_pos_of_ne_nil (L.encode_ne_nil now (hus u hu))
        rw [if_pos hpos]
        refine ⟨_, rfl, rfl, ?_, h.handled, ?_, ?_⟩
        · rw [hupdates] at hstream
          simpa [underWay, queued, unsent, Phase.inHand, hupdates,
            sendToIncrementalNetwork, SnapshotUpdate.make] using hstream
        · exact along_concat.mpr ⟨hnumbers, hnext⟩
        · simpa [Counts, queued, Phase.inHand, sendToIncrementalNetwork,
            Nat.add_assoc] using hnext
      · exact ⟨f, rfl, rfl, h⟩
  | push =>
      rw [step]
      split
      · rename_i snap hphase
        simp only [underWay, queued, unsent, Counts, hphase, Phase.inHand]
          at hstream hnumbers hcounts
        refine ⟨_, rfl, rfl, ?_, h.handled, ?_, ?_⟩
        · simpa [underWay, queued, unsent, Phase.inHand] using hstream
        · simpa [queued, Phase.inHand] using hnumbers
        · simpa [Counts, queued, Phase.inHand] using hcounts
      · exact ⟨f, rfl, rfl, h⟩
  | advance =>
      rw [step]
      split
      · rename_i hphase
        simp only [underWay, queued, unsent, Counts, hphase, Phase.inHand]
          at hstream hnumbers hcounts
        refine ⟨_, rfl, rfl, hstream, h.handled, hnumbers, ?_⟩
        simp only [Counts, queued, Phase.inHand, hcounts, Nat.mod_add_mod]
      · exact ⟨f, rfl, rfl, h⟩
  | drain => exact absurd rfl ha

/-- The entry that the streamer takes next is update `k` under number
`k + 1`. -/
theorem drain
    (h : Numbered L us k f) {snap : SnapshotUpdate}
    {rest : List SnapshotUpdate} (hqueue : f.streamerUpdates = snap :: rest) :
    us[k]? = some snap.update ∧ snap.seqNum = (k + 1) % wordSize ∧
      ∀ s, Numbered L us (k + 1)
        { f with streamerUpdates := rest, streamer := s } := by
  have hqueued : f.queued = snap :: (rest ++ f.phase.inHand) := by
    rw [queued, hqueue, List.cons_append]
  have hdrop : us = us.take k ++ snap.update ::
      ((rest ++ f.phase.inHand).map (·.update) ++ f.unsent) := by
    have hstream := h.stream
    rwa [underWay, hqueued] at hstream
  have hlen : (us.take k).length = k := by
    rw [List.length_take, Nat.min_eq_left h.handled]
  have hk : us[k]? = some snap.update := by
    rw [hdrop, List.getElem?_append_right (by rw [hlen])]
    simp [hlen]
  have hlt := (List.getElem?_eq_some_iff.mp hk).1
  have htake : us.take (k + 1) = us.take k ++ [snap.update] := by
    rw [List.take_add_one, hk, Option.toList_some]
  refine ⟨hk, ?_, fun s => ⟨?_, hlt, ?_, ?_⟩⟩
  · exact h.numbers [] snap _ hqueued
  · rw [htake, List.append_assoc]
    exact hdrop
  · intro pre snap' post hsplit
    have hnumber := h.numbers (snap :: pre) snap' post (by
      rw [hqueued]
      exact congrArg (snap :: ·) hsplit)
    rw [hnumber, List.length_cons]
    congr 1
    omega
  · have hcounts := h.counts
    rw [hqueued, List.length_cons] at hcounts
    rwa [show k + ((rest ++ f.phase.inHand).length + 1) =
      k + 1 + (rest ++ f.phase.inHand).length by omega] at hcounts

end Numbered

end Feed

namespace SnapshotService

/-- The bytes are a snapshot of the book that the streamer has now. -/
def Shown (T : ItchTypes) (s : SnapshotService) (buf : List UInt8) : Prop :=
  ∃ ms, buf = ms.flatMap T.layout.bytes ∧ (∀ m ∈ ms, m.Fits) ∧
    IsSnapshot s.maxTickers s.streamer.lastSeqNum s.streamer.book.viewAt ms

/-- The streamer has handled the first `k` updates of `us`, and its buffer is
of use unless the book is dirty. -/
structure Fresh (T : ItchTypes) (n : Nat) (us : List MEMarketUpdate) (k : Nat)
    (s : SnapshotService) : Prop where
  maxTickers : s.maxTickers = n
  numbered : s.feed.Numbered T.layout us k
  last : s.streamer.lastSeqNum = k % wordSize
  tickers : s.streamer.book.shadowBook.length = n
  sound : s.streamer.book.Sound
  book : s.streamer.book.viewAt =
    (us.take k).foldl ShadowBook.bookStep fun _ _ => none
  buffer : s.snapshotBuf ≠ [] → s.streamer.book.dirty = false →
    s.Shown T s.snapshotBuf

variable {T : ItchTypes} {n : Nat} {us : List MEMarketUpdate} {k : Nat}
  {s : SnapshotService}

theorem Fresh.init (ring : Nat → ReplayEntry) :
    Fresh T n us 0 (init n ring us) where
  maxTickers := rfl
  numbered := .init n ring
  last := rfl
  tickers := List.length_replicate
  sound := .init n
  book := ShadowBook.viewAt_init n
  buffer h := absurd rfl h

/-- `bakeSnapshot` fills the buffer with a snapshot of the book. -/
theorem bakeSnapshot_eq
    (hsound : s.streamer.book.Sound)
    (hn : s.streamer.book.shadowBook.length = s.maxTickers)
    (hword : s.maxTickers ≤ 2 ^ 16) (hseq : s.streamer.lastSeqNum < 2 ^ 64)
    (clock : Nat → Nat) (it : Iteration) :
    ∃ ms, s.bakeSnapshot T.layout clock it = .ok { s with
        feed := { s.feed with
          streamer := { s.streamer with
            book := { s.streamer.book with dirty := false } } }
        snapshotBuf := ms.flatMap T.layout.bytes } ∧
      (∀ m ∈ ms, m.Fits) ∧
      IsSnapshot s.maxTickers s.streamer.lastSeqNum s.streamer.book.viewAt
        ms := by
  have htickers : ∀ t ∈ List.range s.maxTickers,
      t < 2 ^ 16 ∧ t < s.streamer.book.shadowBook.length := by
    intro t ht
    rw [List.mem_range] at ht
    exact ⟨Nat.lt_of_lt_of_le ht hword, hn.symm ▸ ht⟩
  obtain ⟨sections, hbuf, hfits, hsections⟩ :=
    foldlM_appendTicker T.layout clock hsound it htickers
      (appendCtrl T.layout clock snapCtrlStart s.streamer.lastSeqNum [])
  refine ⟨ctrlMessage (clock 0) snapCtrlStart s.streamer.lastSeqNum ::
      sections.flatten ++
      [ctrlMessage (clock (appendCtrl T.layout clock snapCtrlStart
        s.streamer.lastSeqNum [] ++
          sections.flatten.flatMap T.layout.bytes).length)
        snapCtrlEnd s.streamer.lastSeqNum], ?_, ?_, _, _, sections, rfl,
    hsections⟩
  · unfold bakeSnapshot
    dsimp only
    rw [hbuf, ok_bind]
    simp only [appendCtrl, List.nil_append, List.cons_append,
      List.flatMap_cons, List.flatMap_append, List.flatMap_nil,
      List.append_nil, List.append_assoc, List.length_nil]
  · intro m hm
    rw [List.cons_append, List.mem_cons, List.mem_append,
      List.mem_singleton] at hm
    rcases hm with rfl | hm | rfl
    · exact fits_ctrlMessage (by decide) hseq
    · exact hfits m hm
    · exact fits_ctrlMessage (by decide) hseq

theorem Fresh.bakeSnapshot
    (h : Fresh T n us k s) (hn : n ≤ 2 ^ 16) (clock : Nat → Nat)
    (it : Iteration) :
    ∃ s', s.bakeSnapshot T.layout clock it = .ok s' ∧ Fresh T n us k s' ∧
      s'.Shown T s'.snapshotBuf := by
  have hseq : s.streamer.lastSeqNum < 2 ^ 64 := by
    rw [h.last]
    exact Nat.mod_lt _ (by decide)
  obtain ⟨ms, hbake, hfits, hsnapshot⟩ :=
    bakeSnapshot_eq (T := T) h.sound (h.tickers.trans h.maxTickers.symm)
      (h.maxTickers.symm ▸ hn) hseq clock it
  have hnumbered := h.numbered
  refine ⟨_, hbake, ⟨h.maxTickers, ?_, h.last, h.tickers, h.sound, h.book,
    fun _ _ => ⟨ms, rfl, hfits, hsnapshot⟩⟩, ms, rfl, hfits, hsnapshot⟩
  exact ⟨hnumbered.stream, hnumbered.handled, hnumbered.numbers,
    hnumbered.counts⟩

/-- The bytes that are sent are a snapshot of the book, baked now or kept. -/
theorem Fresh.serveSnapshot
    (h : Fresh T n us k s) (hn : n ≤ 2 ^ 16) (clock : Nat → Nat)
    (it : Iteration) :
    ∃ s', s.serveSnapshot T.layout clock it = .ok (s', s'.snapshotBuf) ∧
      Fresh T n us k s' ∧ s'.Shown T s'.snapshotBuf := by
  unfold SnapshotService.serveSnapshot
  by_cases hbake : s.streamer.book.dirty = true ∨ s.snapshotBuf = []
  · obtain ⟨s', hs', h', hshown⟩ := h.bakeSnapshot hn clock it
    rw [if_pos hbake, hs']
    exact ⟨s', rfl, h', hshown⟩
  · rw [if_neg hbake]
    rw [not_or, Bool.not_eq_true] at hbake
    exact ⟨s, rfl, h, h.buffer hbake.2 hbake.1⟩

/-- The streamer handles an update: the book is dirty. -/
theorem Fresh.drain
    (hwire : ∀ u ∈ us, OnWire u) (htickers : ∀ u ∈ us, u.tickerId < n)
    (h : Fresh T n us k s) :
    ∃ s' k', s.step T.layout (.feed .drain) = .ok s' ∧ Fresh T n us k' s' := by
  rw [step, Feed.step]
  split
  · exact ⟨s, k, rfl, h⟩
  · rename_i snap rest hqueue
    obtain ⟨hk, hnumber, hnumbered⟩ := h.numbered.drain hqueue
    have hmem := List.mem_of_getElem? hk
    obtain ⟨b, hb, hlen, hview⟩ :=
      ShadowBook.viewAt_applyToBook (b := s.streamer.book) (u := snap.update)
        (h.tickers.symm ▸ htickers _ hmem)
    obtain ⟨hsound, hdirty⟩ := h.sound.applyToBook (hwire _ hmem) hb
    have hdrain : s.feed.streamer.drain snap = .ok
        { ({ s.streamer with book := b } : SnapshotStreamer).writeReplayEntry
          snap with lastSeqNum := snap.seqNum } := by
      unfold SnapshotStreamer.drain
      rw [show s.feed.streamer.book.applyToBook snap.update = .ok b from hb,
        ok_bind]
      rfl
    rw [hdrain, ok_bind, ok_bind]
    refine ⟨_, k + 1, rfl, h.maxTickers, hnumbered _, hnumber,
      hlen.trans h.tickers, hsound, ?_, fun _ hclean => ?_⟩
    · rw [List.take_add_one, hk, Option.toList_some, List.foldl_append,
        List.foldl_cons, List.foldl_nil, ← h.book]
      exact hview
    · exact absurd (hdirty.symm.trans hclean) (by decide)

theorem Fresh.step
    (hn : n ≤ 2 ^ 16) (hwire : ∀ u ∈ us, OnWire u)
    (htickers : ∀ u ∈ us, u.tickerId < n) (s : SnapshotService)
    (a : SnapshotAction) (h : ∃ k, Fresh T n us k s) :
    ∃ s', s.step T.layout a = .ok s' ∧ ∃ k, Fresh T n us k s' := by
  obtain ⟨k, h⟩ := h
  cases a with
  | serve clock it =>
      obtain ⟨s', hs', h', -⟩ := h.serveSnapshot hn clock it
      refine ⟨s', ?_, k, h'⟩
      rw [SnapshotService.step, hs']
      rfl
  | feed a =>
      by_cases ha : a = .drain
      · subst ha
        obtain ⟨s', k', hs', h'⟩ := h.drain hwire htickers
        exact ⟨s', hs', k', h'⟩
      · obtain ⟨f, hf, hstreamer, hnumbered⟩ :=
          h.numbered.publish (fun u hu => (hwire u hu).incremental) ha
        refine ⟨{ s with feed := f }, ?_, k, ?_⟩
        · rw [SnapshotService.step, hf]
          rfl
        · have hkept : ({ s with feed := f } : SnapshotService).streamer =
              s.streamer := hstreamer
          refine ⟨h.maxTickers, hnumbered, ?_, ?_, ?_, ?_, ?_⟩
          · rw [hkept]
            exact h.last
          · rw [hkept]
            exact h.tickers
          · rw [hkept]
            exact h.sound
          · rw [hkept]
            exact h.book
          · rw [Shown, hkept]
            exact h.buffer

/-- **A served snapshot is fresh, complete and decodable.**  After every
schedule, with `k` updates handled, a request is answered with bytes that parse
as a snapshot, under the sequence number of update `k`, of the book that the
first `k` updates make from the empty one. -/
theorem snapshot_fresh_and_complete
    (T : ItchTypes) {n : Nat} (hn : n ≤ 2 ^ 16) (ring : Nat → ReplayEntry)
    {us : List MEMarketUpdate} (hwire : ∀ u ∈ us, OnWire u)
    (htickers : ∀ u ∈ us, u.tickerId < n) (schedule : List SnapshotAction) :
    ∃ s k b, run T.layout n ring us schedule = .ok s ∧
      us = us.take k ++ s.feed.underWay ∧ k ≤ us.length ∧
      s.streamer.lastSeqNum = k % wordSize ∧
      (us.take k).foldlM ShadowBook.applyToBook (ShadowBook.init n) = .ok b ∧
      ∀ clock it, ∃ s' bytes ms,
        s.serveSnapshot T.layout clock it = .ok (s', bytes) ∧
        T.parse bytes = some ms ∧
        IsSnapshot n s.streamer.lastSeqNum b.viewAt ms := by
  obtain ⟨s, hs, k, h⟩ := foldlM_invariant (fun s => ∃ k, Fresh T n us k s)
    (Fresh.step hn hwire htickers) ⟨0, Fresh.init ring⟩ schedule
  have hlen : (ShadowBook.init n).shadowBook.length = n :=
    List.length_replicate
  have hrange : ∀ u ∈ us.take k,
      u.tickerId < (ShadowBook.init n).shadowBook.length :=
    fun u hu => hlen.symm ▸ htickers u (List.mem_of_mem_take hu)
  obtain ⟨b, hb, -, hview⟩ := ShadowBook.viewAt_foldlM_applyToBook hrange
  refine ⟨s, k, b, hs, h.numbered.stream, h.numbered.handled, h.last, hb,
    fun clock it => ?_⟩
  obtain ⟨s', hs', h', ms, hbuf, hfits, hsnapshot⟩ :=
    h.serveSnapshot hn clock it
  refine ⟨s', _, ms, hs', ?_, ?_⟩
  · rw [hbuf]
    exact ItchTypes.parse_bytes hfits
  · rw [hview, ShadowBook.viewAt_init, ← h'.book, h.last, ← h'.last,
      ← h'.maxTickers]
    exact hsnapshot

/-- The entries of a map by increasing ids. -/
def byId : Iteration where
  entries _ orders :=
    (orders.keys.sort (· ≤ ·)).filterMap fun m =>
      (orders.lookup m).map fun u => (m, u)
  nodup t orders := by
    rw [List.map_filterMap]
    refine List.Nodup.filterMap ?_ (Finset.sort_nodup _ _)
    intro m m' x hx hx'
    simp only [Option.map_map, Option.mem_def, Option.map_eq_some_iff,
      Function.comp_apply] at hx hx'
    obtain ⟨-, -, rfl⟩ := hx
    obtain ⟨-, -, hm⟩ := hx'
    exact hm.symm
  mem t orders m u := by
    simp only [List.mem_filterMap, Finset.mem_sort, Option.map_eq_some_iff,
      Prod.mk.injEq]
    constructor
    · rintro ⟨_, -, _, hu, rfl, rfl⟩
      exact hu
    · intro hu
      refine ⟨m, ?_, u, hu, rfl, rfl⟩
      exact Finmap.mem_keys.mpr
        (Finmap.lookup_isSome.mp (Option.isSome_iff_exists.mpr ⟨u, hu⟩))

/-- A bid is handled and a snapshot is served; while the bid's cancellation is
on its way a second request is served from the buffer. -/
theorem snapshot_fresh_and_complete_example :
    ∃ s k b, run (ItchTypes.mk 65 68 69 85 (by decide)).layout 1
        (fun _ => ⟨[], [], 0⟩) [Feed.quoteUpdate 0, Feed.quoteUpdate 1]
        [.feed (.encode 5), .feed .send, .feed .push, .feed .drain,
          .serve (fun _ => 6) byId, .feed .advance, .feed (.encode 7),
          .feed .send, .feed .push, .serve (fun _ => 8) byId] = .ok s ∧
      [Feed.quoteUpdate 0, Feed.quoteUpdate 1] =
        [Feed.quoteUpdate 0, Feed.quoteUpdate 1].take k ++ s.feed.underWay ∧
      k ≤ 2 ∧ s.streamer.lastSeqNum = k % wordSize ∧
      ([Feed.quoteUpdate 0, Feed.quoteUpdate 1].take k).foldlM
        ShadowBook.applyToBook (ShadowBook.init 1) = .ok b ∧
      ∀ clock it, ∃ s' bytes ms,
        s.serveSnapshot (ItchTypes.mk 65 68 69 85 (by decide)).layout clock
          it = .ok (s', bytes) ∧
        (ItchTypes.mk 65 68 69 85 (by decide)).parse bytes = some ms ∧
        IsSnapshot 1 s.streamer.lastSeqNum b.viewAt ms := by
  refine snapshot_fresh_and_complete _ (by decide) _ ?_ (by decide) _
  intro u hu
  simp only [List.mem_cons, List.not_mem_nil, or_false] at hu
  rcases hu with rfl | rfl
  all_goals exact ⟨trivial, by decide, by decide, by decide, by decide,
    by decide, by decide⟩

end SnapshotService

end NanoExchange
