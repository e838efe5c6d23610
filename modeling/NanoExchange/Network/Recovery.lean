import NanoExchange.Lib.Replica
import NanoExchange.Lib.SelfDelimiting
import NanoExchange.Network.RecoveryService

/-!
# What a subscriber makes of the answers

A subscriber keeps the quotes and the number of the last datagram that has gone
into them; it applies the datagram after that one and drops all others.  When
it has missed some, it asks the recovery service for a replay of what comes
after its number, or for a snapshot, which it starts again from.  A replay is
made of frames like the datagrams of the feed.

A connection may break at any point of an answer.  Frames that are complete are
taken, a snapshot without its END is not used: in neither case is the
subscriber led astray (`SnapshotService.Serving.harmless`).
-/

namespace NanoExchange

open Lib

namespace ItchTypes

variable (T : ItchTypes)

/-- `[seq][payload]` at the front of a replay. -/
def readFrame : List UInt8 → Option ((Nat × List UInt8) × List UInt8) :=
  Delimits.readPair (readWord 8) (cutMessage T.size)

/-- The message at the front of a snapshot. -/
def readMessage : List UInt8 → Option (ItchMessage × List UInt8) :=
  Delimits.readDecode (cutMessage T.size) T.decode

variable {T}

/-- A frame with its number. -/
def IsFrame (T : ItchTypes) (e : Nat × List UInt8) : Prop :=
  e.1 < 2 ^ (8 * 8) ∧ Framing.Complete T.size e.2

theorem delimits_frames :
    Delimits T.IsFrame (fun e => toBigEndian 8 e.1 ++ e.2) T.readFrame :=
  (delimits_word (by decide)).pair (delimits_message T.size)

theorem delimits_messages :
    Delimits ItchMessage.Fits T.layout.bytes T.readMessage :=
  (delimits_message T.size).decode (fun m _ => complete_bytes m)
    fun _ hm => decode_bytes hm

end ItchTypes

/-- What a subscriber has read of a snapshot. -/
structure SnapshotReader where
  seq : Nat := 0
  quotes : TickerId → Quotes := fun _ _ => none
  complete : Bool := false

namespace SnapshotReader

/-- START begins anew, CLEAR empties the quotes of a ticker, END closes the
snapshot of the same number; other messages are about quotes. -/
def read (r : SnapshotReader) (m : ItchMessage) : SnapshotReader :=
  match m with
  | .orderDelete h value =>
      if h.stockLocate = snapCtrlStart then { seq := value }
      else if h.stockLocate = snapCtrlClear then
        { r with quotes := Function.update r.quotes value fun _ => none }
      else if h.stockLocate = snapCtrlEnd ∧ value = r.seq then
        { r with complete := true }
      else r
  | m =>
      let quotes := m.apply (r.quotes m.stockLocate)
      { r with quotes := Function.update r.quotes m.stockLocate quotes }

/-- The Add Orders of a ticker. -/
theorem foldl_read_adds
    {t : TickerId} {adds : List ItchMessage}
    (hadds : ∀ m ∈ adds, ∃ header ref buySell shares stock price,
      m = .addOrder header ref buySell shares stock price ∧
        header.stockLocate = t) (r : SnapshotReader) :
    adds.foldl read r = { r with
      quotes := Function.update r.quotes t
        (adds.foldl ItchMessage.apply (r.quotes t)) } := by
  induction adds generalizing r with
  | nil => simp
  | cons m adds ih =>
      obtain ⟨⟨header, ref, buySell, shares, stock, price, rfl, rfl⟩, hrest⟩ :=
        List.forall_mem_cons.mp hadds
      rw [List.foldl_cons, ih hrest]
      simp [read, ItchMessage.stockLocate]

/-- The section of a ticker says its quotes. -/
theorem foldl_read_section
    {t : TickerId} {f : Quotes} {ms : List ItchMessage}
    (h : IsSection t f ms) (r : SnapshotReader) :
    ms.foldl read r =
      { r with quotes := Function.update r.quotes t f } := by
  obtain ⟨now, adds, rfl, hlists⟩ := h
  have hclear : r.read (ctrlMessage now snapCtrlClear t) = { r with
      quotes := Function.update r.quotes t fun _ => none } := by
    simp [read, ctrlMessage, snapCtrlClear, snapCtrlStart]
  rw [List.foldl_cons, hclear, foldl_read_adds hlists.adds]
  simp [hlists.decoded]

theorem foldl_read_sections
    {F : TickerId → Quotes} {tickers : List TickerId}
    {sections : List (List ItchMessage)}
    (h : List.Forall₂ (fun t ms => IsSection t (F t) ms) tickers sections)
    (r : SnapshotReader) :
    sections.flatten.foldl read r = { r with
      quotes := fun t => if t ∈ tickers then F t else r.quotes t } := by
  induction h generalizing r with
  | nil => simp
  | @cons t ms tickers sections hsection _ ih =>
      rw [List.flatten_cons, List.foldl_append, foldl_read_section hsection, ih]
      congr 1
      funext t'
      by_cases hmem : t' ∈ tickers
      · simp [hmem]
      · by_cases heq : t' = t
        · subst heq
          simp [hmem]
        · simp [hmem, heq]

/-- A message that does not complete a snapshot. -/
def Open (m : ItchMessage) : Prop :=
  ∀ header value, m = .orderDelete header value →
    header.stockLocate ≠ snapCtrlEnd

theorem complete_foldl_read
    {ms : List ItchMessage} (hms : ∀ m ∈ ms, Open m) {r : SnapshotReader}
    (hr : r.complete = false) :
    (ms.foldl read r).complete = false := by
  induction ms generalizing r with
  | nil => exact hr
  | cons m ms ih =>
      obtain ⟨hm, hrest⟩ := List.forall_mem_cons.mp hms
      refine ih hrest ?_
      cases m with
      | orderDelete header value =>
          have hend := hm header value rfl
          unfold read
          dsimp only
          split
          · rfl
          · split
            · exact hr
            · split
              · rename_i hstop
                exact absurd hstop.1 hend
              · exact hr
      | addOrder | orderExecuted | orderReplace => exact hr

theorem open_of_isSection
    {t : TickerId} {f : Quotes} {ms : List ItchMessage}
    (h : IsSection t f ms) :
    ∀ m ∈ ms, Open m := by
  obtain ⟨now, adds, rfl, hlists⟩ := h
  intro m hm header value hdelete
  rcases List.mem_cons.mp hm with rfl | hm
  · obtain ⟨rfl, -⟩ := ItchMessage.orderDelete.inj hdelete
    show snapCtrlClear ≠ snapCtrlEnd
    decide
  · obtain ⟨_, _, _, _, _, _, rfl, -⟩ := hlists.adds m hm
    cases hdelete

theorem open_of_sections
    {F : TickerId → Quotes} {tickers : List TickerId}
    {sections : List (List ItchMessage)}
    (h : List.Forall₂ (fun t ms => IsSection t (F t) ms) tickers sections) :
    ∀ m ∈ sections.flatten, Open m := by
  induction h with
  | nil => simp
  | cons hsection _ ih =>
      intro m hm
      rw [List.flatten_cons, List.mem_append] at hm
      rcases hm with hm | hm
      · exact open_of_isSection hsection m hm
      · exact ih m hm

/-- **A snapshot that is cut off is not complete.** -/
theorem eq_of_complete
    {n seqNum : Nat} {F : TickerId → Quotes} {ms part : List ItchMessage}
    (h : IsSnapshot n seqNum F ms) (hpart : part <+: ms)
    (hcomplete : (part.foldl read {}).complete = true) :
    part = ms := by
  obtain ⟨start, stop, sections, rfl, hsections⟩ := h
  rcases List.prefix_concat_iff.mp hpart with rfl | hpart
  · rfl
  · have hopen : ∀ m ∈ part, Open m := by
      intro m hm header value hdelete
      rcases List.mem_cons.mp (hpart.subset hm) with rfl | hm
      · obtain ⟨rfl, -⟩ := ItchMessage.orderDelete.inj hdelete
        show snapCtrlStart ≠ snapCtrlEnd
        decide
      · exact open_of_sections hsections m hm header value hdelete
    rw [complete_foldl_read hopen rfl] at hcomplete
    cases hcomplete

/-- **A whole snapshot is read as what it says.** -/
theorem foldl_read_snapshot
    {n seqNum : Nat} {F : TickerId → Quotes} {ms : List ItchMessage}
    (h : IsSnapshot n seqNum F ms) (hF : ∀ t, n ≤ t → F t = fun _ => none) :
    ms.foldl read {} = ⟨seqNum, F, true⟩ := by
  obtain ⟨start, stop, sections, rfl, hsections⟩ := h
  have hstart : read {} (ctrlMessage start snapCtrlStart seqNum) =
      { seq := seqNum } := by
    simp [read, ctrlMessage]
  have hquotes : (fun t => if t ∈ List.range n then F t else fun _ => none) =
      F := by
    funext t
    by_cases ht : t < n
    · simp [ht]
    · rw [if_neg (by simpa using ht), hF t (Nat.le_of_not_lt ht)]
  rw [List.cons_append, List.foldl_cons, List.foldl_append, hstart,
    foldl_read_sections hsections, hquotes]
  simp [read, ctrlMessage, snapCtrlClear, snapCtrlStart, snapCtrlEnd]

end SnapshotReader

/-- A subscriber has the quotes of all tickers. -/
abbrev Subscriber :=
  Replica (TickerId → Quotes)

namespace Subscriber

variable (T : ItchTypes)

/-- The frames of a datagram or of a replay are offered one after the other. -/
def hear (r : Subscriber) (data : List UInt8) : Subscriber :=
  r.offerAll T.receive (readAll T.readFrame data.length data)

/-- A complete snapshot is started again from. -/
def restart (r : Subscriber) (data : List UInt8) : Subscriber :=
  let snap := (readAll T.readMessage data.length data).foldl
    SnapshotReader.read {}
  if snap.complete = true then ⟨snap.seq, snap.quotes⟩ else r

/-- What a subscriber does with the answer to a request of its own. -/
def take (r : Subscriber) (q : RecoveryRequest) (answer : List UInt8) :
    Subscriber :=
  match q with
  | .snapshot => r.restart T answer
  | .replay _ =>
      match answer with
      | status :: data => if status = 82 then r.hear T data else r
      | [] => r
  | .other => r

@[simp] theorem take_nil {r : Subscriber} {q : RecoveryRequest} :
    r.take T q [] = r := by
  cases q <;> rfl

end Subscriber

/-- The quotes after the first `k` updates. -/
def imageAfter (us : List MEMarketUpdate) (k : Nat) : TickerId → Quotes :=
  (us.take k).foldl ShadowBook.bookStep fun _ _ => none

theorem imageAfter_succ
    {us : List MEMarketUpdate} {k : Nat} {u : MEMarketUpdate}
    (hu : us[k]? = some u) :
    imageAfter us (k + 1) = ShadowBook.bookStep (imageAfter us k) u := by
  rw [imageAfter, List.take_add_one, hu, Option.toList_some,
    List.foldl_append]
  rfl

/-- The frame stands in the feed under its number. -/
abbrev GenuineFrame (T : ItchTypes) (us : List MEMarketUpdate) (len : Nat)
    (e : Nat × List UInt8) : Prop :=
  Replica.Genuine T.receive (imageAfter us) len e

section Frames

variable {T : ItchTypes} {n : Nat} {us : List MEMarketUpdate} {f : Feed}
  {E D : List SnapshotUpdate}

/-- **A datagram takes a subscriber from one update to the next.** -/
theorem genuine_datagram
    (hwire : ∀ u ∈ us, OnWire u) (htickers : ∀ u ∈ us, u.tickerId < n)
    (hknown : ModifiesKnown (ShadowBook.init n) us)
    {k : Nat} {u : MEMarketUpdate} (hu : us[k]? = some u) (now : Nat)
    {len : Nat} (hk : k < len) :
    GenuineFrame T us len (k + 1, T.layout.encode now u) := by
  refine ⟨k, hk, rfl, ?_⟩
  have hmem := List.mem_of_getElem? hu
  rw [imageAfter_succ hu]
  refine T.receive_encode (hwire u hmem) now fun hmodify => ?_
  have hsplit : us = us.take k ++ u :: us.drop (k + 1) := by
    obtain ⟨hlt, rfl⟩ := List.getElem?_eq_some_iff.mp hu
    rw [← List.drop_eq_getElem_cons hlt, List.take_append_drop]
  obtain ⟨b, orders, x, hb, ho, hx, hside⟩ :=
    hknown (us.take k) u _ hsplit hmodify
  have hrange : ∀ v ∈ us.take k,
      v.tickerId < (ShadowBook.init n).shadowBook.length := by
    intro v hv
    rw [ShadowBook.init, List.length_replicate]
    exact htickers v (List.mem_of_mem_take hv)
  obtain ⟨b', hb', -, hview⟩ := ShadowBook.viewAt_foldlM_applyToBook hrange
  obtain rfl := Except.ok.inj (hb.symm.trans hb')
  refine ⟨x.quote, ?_, hside⟩
  rw [imageAfter, ← ShadowBook.viewAt_init n, ← hview,
    ShadowBook.viewAt_of_getElem? ho, ShadowBook.view, hx]
  rfl

/-- The datagrams are frames, numbered from one on. -/
theorem frames_of_published
    (hwire : ∀ u ∈ us, OnWire u) (htickers : ∀ u ∈ us, u.tickerId < n)
    (hknown : ModifiesKnown (ShadowBook.init n) us)
    (hlen : us.length + 1 < wordSize)
    (h : Feed.Published T.layout n us E D f) :
    ∃ frames : List (Nat × List UInt8),
      f.udp = frames.map (fun e => toBigEndian 8 e.1 ++ e.2) ∧
      frames.map Prod.fst = List.range' 1 f.udp.length ∧
      ∀ e ∈ frames, T.IsFrame e ∧ GenuineFrame T us f.udp.length e := by
  have hmade : ∀ k (hk : k < E.length), ∃ now, us[k]? = some E[k].update ∧
      E[k] = .make T.layout now E[k].update (k + 1) := by
    intro k hk
    obtain ⟨now, hmake⟩ := h.made.getElem? (List.getElem?_eq_getElem hk)
    rw [List.length_take, Nat.min_eq_left hk.le] at hmake
    refine ⟨now, ?_, hmake⟩
    rw [← h.stream, List.getElem?_append_left (by rwa [List.length_map]),
      List.getElem?_map, List.getElem?_eq_getElem hk, Option.map_some]
  have hudp : f.udp.length = E.length := by
    rw [h.udp, List.length_map]
  refine ⟨E.map fun snap => (snap.seqNum, snap.bytes.take snap.len), ?_, ?_,
    ?_⟩
  · rw [h.udp, List.map_map]
    rfl
  · rw [List.map_map, hudp]
    refine List.ext_getElem (by simp) fun k hk _ => ?_
    rw [List.length_map] at hk
    obtain ⟨now, -, hmake⟩ := hmade k hk
    have hseq : E[k].seqNum = k + 1 := by
      rw [hmake]
      rfl
    simp [hseq]
    omega
  · intro e he
    obtain ⟨snap, hsnap, rfl⟩ := List.mem_map.mp he
    obtain ⟨k, hk, rfl⟩ := List.mem_iff_getElem.mp hsnap
    obtain ⟨now, hu, hmake⟩ := hmade k hk
    have hframe : (E[k].seqNum, E[k].bytes.take E[k].len) =
        (k + 1, T.layout.encode now E[k].update) := by
      rw [hmake]
      simp [SnapshotUpdate.make]
    have hle := h.length_le
    have hwireK := hwire _ (List.mem_of_getElem? hu)
    rw [hframe, hudp]
    refine ⟨⟨?_, ?_⟩, genuine_datagram hwire htickers hknown hu now hk⟩
    · show k + 1 < wordSize
      omega
    · obtain ⟨m, hm, -⟩ := hwireK.itchMessage now
      rw [ItchLayout.encode, hm]
      exact ItchTypes.complete_bytes m

end Frames

namespace Subscriber

variable {T : ItchTypes} {us : List MEMarketUpdate} {len : Nat}
  {r : Subscriber} {frames : List (Nat × List UInt8)}

/-- A run of frames that is cut off somewhere leads nobody astray. -/
theorem hear_follows
    (hframes : ∀ e ∈ frames, T.IsFrame e ∧ GenuineFrame T us len e)
    {data : List UInt8}
    (hdata : data <+: frames.flatMap fun e => toBigEndian 8 e.1 ++ e.2)
    (h : r.Follows (imageAfter us) len) :
    (r.hear T data).Follows (imageAfter us) len := by
  have hread := ItchTypes.delimits_frames.readAll_prefix
    (fun e he => (hframes e he).1) hdata (Nat.le_refl data.length)
  refine h.offerAll fun e he => ?_
  exact (hframes e (hread.subset he)).2

/-- A run of frames from the next one on brings a subscriber up to date. -/
theorem seq_hear
    (hframes : ∀ e ∈ frames, T.IsFrame e) {m : Nat}
    (hseq : frames.map Prod.fst = List.range' (r.seq + 1) m) :
    (r.hear T (frames.flatMap fun e => toBigEndian 8 e.1 ++ e.2)).seq =
      r.seq + m := by
  unfold hear
  rw [ItchTypes.delimits_frames.readAll_flatMap hframes (Nat.le_refl _),
    Replica.seq_offerAll hseq (Nat.le_refl _)]
  omega

/-- A subscriber takes datagrams like entries of a log. -/
theorem foldl_hear (hframes : ∀ e ∈ frames, T.IsFrame e) :
    (frames.map fun e => toBigEndian 8 e.1 ++ e.2).foldl (hear T) r =
      r.offerAll T.receive frames := by
  induction frames generalizing r with
  | nil => rfl
  | cons e frames ih =>
      obtain ⟨he, hframes⟩ := List.forall_mem_cons.mp hframes
      have hsingle : ∀ e' ∈ [e], T.IsFrame e' :=
        List.forall_mem_singleton.mpr he
      have hone := ItchTypes.delimits_frames.readAll_flatMap hsingle
        (Nat.le_refl _)
      rw [List.flatMap_singleton] at hone
      rw [List.map_cons, List.foldl_cons, Replica.offerAll_cons, hear, hone]
      exact ih hframes

/-- A snapshot that is cut off somewhere is not used. -/
theorem restart_eq
    {n seqNum : Nat} {F : TickerId → Quotes} {ms : List ItchMessage}
    (hms : ∀ m ∈ ms, m.Fits) (h : IsSnapshot n seqNum F ms)
    (hF : ∀ t, n ≤ t → F t = fun _ => none) {data : List UInt8}
    (hdata : data <+: ms.flatMap T.layout.bytes) :
    r.restart T data = r ∨ r.restart T data = ⟨seqNum, F⟩ := by
  have hread := ItchTypes.delimits_messages.readAll_prefix hms hdata
    (Nat.le_refl data.length)
  unfold restart
  dsimp only
  split
  · rename_i hcomplete
    have hall := SnapshotReader.eq_of_complete h hread hcomplete
    rw [hall, SnapshotReader.foldl_read_snapshot h hF]
    exact .inr rfl
  · exact .inl rfl

theorem restart_whole
    {n seqNum : Nat} {F : TickerId → Quotes} {ms : List ItchMessage}
    (hms : ∀ m ∈ ms, m.Fits) (h : IsSnapshot n seqNum F ms)
    (hF : ∀ t, n ≤ t → F t = fun _ => none) :
    r.restart T (ms.flatMap T.layout.bytes) = ⟨seqNum, F⟩ := by
  unfold restart
  rw [ItchTypes.delimits_messages.readAll_flatMap hms (Nat.le_refl _),
    SnapshotReader.foldl_read_snapshot h hF]
  rfl

end Subscriber

namespace SnapshotService.Serving

variable {T : ItchTypes} {n : Nat} {us : List MEMarketUpdate}
  {s : SnapshotService}

/-- The book of the streamer is the book after its last update. -/
theorem book
    (h : s.Serving T n us) (hlen : us.length < wordSize) :
    s.streamer.book.viewAt = imageAfter us s.streamer.lastSeqNum :=
  (h.lastSeqNum hlen).book

/-- There are no quotes of other tickers. -/
theorem imageAfter_of_le
    (h : s.Serving T n us) (hlen : us.length < wordSize) {t : TickerId}
    (ht : n ≤ t) :
    imageAfter us s.streamer.lastSeqNum t = fun _ => none := by
  have hfresh := h.lastSeqNum hlen
  rw [← h.book hlen, ShadowBook.viewAt,
    List.getElem?_eq_none (hfresh.tickers.symm ▸ ht)]
  rfl

/-- What the streamer has handled has been sent. -/
theorem lastSeqNum_le (h : s.Serving T n us) :
    s.streamer.lastSeqNum ≤ s.feed.udp.length := by
  obtain ⟨E, D, hpublished⟩ := h.published
  obtain ⟨-, hle⟩ := hpublished.drained
  have hlast : s.streamer.lastSeqNum = D.length := hpublished.streamer.last
  rw [hlast]
  exact hle

/-- The snapshot in the buffer, read by a subscriber. -/
theorem snapshot
    (h : s.Serving T n us) (hlen : us.length < wordSize)
    (hshown : s.Shown T s.snapshotBuf) :
    ∃ ms : List ItchMessage, s.snapshotBuf = ms.flatMap T.layout.bytes ∧
      (∀ m ∈ ms, m.Fits) ∧
      IsSnapshot n s.streamer.lastSeqNum
        (imageAfter us s.streamer.lastSeqNum) ms := by
  obtain ⟨ms, hbuf, hfits, hsnapshot⟩ := hshown
  refine ⟨ms, hbuf, hfits, ?_⟩
  rw [← h.book hlen, ← (h.lastSeqNum hlen).maxTickers]
  exact hsnapshot

end SnapshotService.Serving

/-- Of a request any part may arrive; the rest of it is not a request. -/
theorem RecoveryRequest.ofBytes_prefix
    {q : RecoveryRequest} {data : List UInt8} (hdata : data <+: q.bytes)
    (hq : ∀ clientSeq, q = .replay clientSeq → clientSeq < wordSize) :
    ofBytes data = .other ∨ ofBytes data = q ∧ data = q.bytes := by
  cases data with
  | nil => exact .inl rfl
  | cons t data =>
      cases q with
      | other => simp [bytes] at hdata
      | snapshot =>
          obtain ⟨rest, hrest⟩ := hdata
          obtain ⟨rfl, hnil⟩ := List.cons.inj hrest
          obtain ⟨rfl, -⟩ := List.append_eq_nil_iff.mp hnil
          exact .inr ⟨rfl, rfl⟩
      | replay clientSeq =>
          obtain ⟨rest, hrest⟩ := hdata
          rw [bytes, List.cons_append, List.cons.injEq] at hrest
          obtain ⟨rfl, hseq⟩ := hrest
          have hlen := congrArg List.length hseq
          rw [List.length_append, length_toBigEndian] at hlen
          by_cases hshort : data.length < 8
          · left
            simp [ofBytes]
            omega
          · obtain rfl : rest = [] := by
              rw [← List.length_eq_zero_iff]
              omega
            rw [List.append_nil] at hseq
            subst hseq
            right
            have hword : clientSeq < 256 ^ 8 := hq clientSeq rfl
            have hnumber : ofBigEndian (toBigEndian 8 clientSeq) = clientSeq := by
              rw [ofBigEndian_toBigEndian, Nat.mod_eq_of_lt hword]
            have htake : (toBigEndian 8 clientSeq).take 8 =
                toBigEndian 8 clientSeq :=
              List.take_of_length_le (length_toBigEndian 8 clientSeq).le
            simp [ofBytes, bytes, htake, hnumber]

/-- The answer, or what has come of it, leads no subscriber astray. -/
def Harmless (T : ItchTypes) (us : List MEMarketUpdate) (len : Nat)
    (answer : RecoveryRequest × List UInt8) : Prop :=
  ∀ len' ≥ len, ∀ r : Subscriber, r.Follows (imageAfter us) len' →
    (r.take T answer.1 answer.2).Follows (imageAfter us) len'

section Answers

variable {T : ItchTypes} {n : Nat} {us : List MEMarketUpdate}
  {s : SnapshotService}

/-- The frames that a replay is made of. -/
theorem SnapshotService.Serving.replayFrames
    (hwire : ∀ u ∈ us, OnWire u) (htickers : ∀ u ∈ us, u.tickerId < n)
    (hknown : ModifiesKnown (ShadowBook.init n) us)
    (hlen : us.length + 1 < wordSize) (h : s.Serving T n us)
    (clientSeq : Nat) :
    ∃ frames : List (Nat × List UInt8),
      ((s.feed.udp.take s.streamer.lastSeqNum).drop clientSeq).flatten =
        frames.flatMap (fun e => toBigEndian 8 e.1 ++ e.2) ∧
      frames.map Prod.fst = List.range' (clientSeq + 1)
        (s.streamer.lastSeqNum - clientSeq) ∧
      ∀ e ∈ frames, T.IsFrame e ∧ GenuineFrame T us s.feed.udp.length e := by
  obtain ⟨E, D, hpublished⟩ := h.published
  obtain ⟨frames, hudp, hnumbers, hframes⟩ :=
    frames_of_published hwire htickers hknown hlen hpublished
  have hlast := h.lastSeqNum_le
  refine ⟨(frames.take s.streamer.lastSeqNum).drop clientSeq, ?_, ?_, ?_⟩
  · rw [hudp, ← List.map_take, ← List.map_drop, List.flatMap_def]
  · rw [List.map_drop, List.map_take, hnumbers,
      List.take_range'_of_length_ge hlast, List.drop_range', Nat.mul_one,
      Nat.add_comm]
  · intro e he
    exact hframes e (List.mem_of_mem_take (List.mem_of_mem_drop he))

/-- A datagram of the feed. -/
theorem SnapshotService.Serving.hear_follows
    (hwire : ∀ u ∈ us, OnWire u) (htickers : ∀ u ∈ us, u.tickerId < n)
    (hknown : ModifiesKnown (ShadowBook.init n) us)
    (hlen : us.length + 1 < wordSize) (h : s.Serving T n us)
    {d : List UInt8} (hd : d ∈ s.feed.udp) {r : Subscriber}
    (hr : r.Follows (imageAfter us) s.feed.udp.length) :
    (r.hear T d).Follows (imageAfter us) s.feed.udp.length := by
  obtain ⟨E, D, hpublished⟩ := h.published
  obtain ⟨frames, hudp, -, hframes⟩ :=
    frames_of_published hwire htickers hknown hlen hpublished
  rw [hudp, List.mem_map] at hd
  obtain ⟨e, he, rfl⟩ := hd
  have hone : ∀ e' ∈ [e], T.IsFrame e' ∧
      GenuineFrame T us s.feed.udp.length e' := by
    intro e' he'
    rw [List.mem_singleton] at he'
    subst he'
    exact hframes e' he
  exact Subscriber.hear_follows hone (by simp) hr

/-- **What comes of the answer to a request is harmless.** -/
theorem SnapshotService.Serving.harmless
    (hwire : ∀ u ∈ us, OnWire u) (htickers : ∀ u ∈ us, u.tickerId < n)
    (hknown : ModifiesKnown (ShadowBook.init n) us)
    (hlen : us.length + 1 < wordSize) (h : s.Serving T n us)
    {s' : SnapshotService} (h' : s'.Serving T n us) (hsame : s.SameBook s')
    {p p' : Peer} (hnew : p.received = [])
    {q : RecoveryRequest} (hq : p.request = .other ∨ p.request = q)
    (hanswered : s.Answered s' p p')
    (hshown : p.request = .snapshot → s'.Shown T s'.snapshotBuf) :
    Harmless T us s.feed.udp.length (q, p'.received) := by
  intro len' hle r hr
  unfold SnapshotService.Answered at hanswered
  rcases hq with hother | rfl
  · rw [hother] at hanswered
    dsimp only at hanswered
    rw [hanswered, hnew, Subscriber.take_nil]
    exact hr
  · cases hrequest : p.request with
    | other => exact hr
    | snapshot =>
        rw [hrequest] at hanswered
        obtain ⟨sent, hsent, hreceived⟩ := hanswered.part
        rw [hnew, List.nil_append] at hreceived
        obtain ⟨ms, hbuf, hfits, hlisted⟩ :=
          h'.snapshot (Nat.lt_of_succ_lt hlen) (hshown hrequest)
        rw [hbuf] at hsent
        have hF := fun t ht =>
          h'.imageAfter_of_le (Nat.lt_of_succ_lt hlen) (t := t) ht
        rw [hreceived]
        show (r.restart T sent).Follows _ _
        rcases Subscriber.restart_eq (r := r) hfits hlisted hF hsent with
          heq | heq
        · rw [heq]
          exact hr
        · rw [heq]
          refine ⟨?_, rfl⟩
          have hlast := h.lastSeqNum_le
          have hseq := hsame.lastSeqNum
          dsimp only
          omega
    | replay clientSeq =>
        rw [hrequest] at hanswered
        obtain ⟨sent, hsent, hreceived⟩ := hanswered.part
        rw [hnew, List.nil_append] at hreceived
        rw [hreceived]
        cases sent with
        | nil => exact hr
        | cons status data =>
            unfold Subscriber.take
            dsimp only
            split
            · rename_i hstatus
              subst hstatus
              have hdata : data <+: ((s.feed.udp.take
                  s.streamer.lastSeqNum).drop clientSeq).flatten := by
                unfold SnapshotStreamer.replayAnswer at hsent
                split at hsent
                · simp at hsent
                · split at hsent
                  · simp at hsent
                  · exact (List.cons_prefix_cons.mp hsent).2
              obtain ⟨frames, hflat, -, hframes⟩ :=
                h.replayFrames hwire htickers hknown hlen clientSeq
              rw [hflat] at hdata
              refine Subscriber.hear_follows (fun e he => ?_) hdata hr
              exact ⟨(hframes e he).1, (hframes e he).2.mono hle⟩
            · exact hr

end Answers

end NanoExchange
