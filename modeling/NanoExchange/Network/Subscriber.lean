import NanoExchange.Network.ItchDecode
import NanoExchange.Network.ShadowRefinement

/-!
# A subscriber of the feed

The ITCH messages say less than the updates they are encoded from: a deletion
has no price and no quantity, a replacement no side.  A subscriber keeps the
quotes of each ticker and applies the decoded messages to them; a replacement
inherits the side of the order that it replaces.

`wire_determines_shadow_book` compares the subscriber with the shadow book of
the snapshot streamer, over whole streams.
-/

namespace NanoExchange

open Lib

/-- What the encoder relies on of an update: the fields fit into their types,
and price and ticker into those of the ITCH structs. -/
structure OnWire (u : MEMarketUpdate) : Prop where
  incremental : u.type.Incremental
  tickerId : u.tickerId < 2 ^ 16
  price : u.price < 2 ^ 32
  qty : u.qty < 2 ^ 32
  marketOrderId : u.marketOrderId < 2 ^ 64
  newOrderId : u.newOrderId < 2 ^ 64
  matchId : u.matchId < 2 ^ 64

theorem itchHeader_fits (now : Nat) (u : MEMarketUpdate) :
    (itchHeader now u).Fits where
  stockLocate := Nat.mod_lt _ (by decide)
  trackingNumber := Nat.two_pow_pos 16
  timestamp := Nat.mod_lt _ (by decide)

/-- The struct of an update, without the narrowings. -/
theorem OnWire.itchMessage
    {u : MEMarketUpdate} (h : OnWire u) (now : Nat) :
    ∃ m, itchMessage now u = some m ∧ m.Fits ∧
      (itchHeader now u).stockLocate = u.tickerId ∧
      u.qty % 2 ^ 32 = u.qty ∧ u.price % 2 ^ 32 = u.price := by
  have hqty := Nat.mod_eq_of_lt h.qty
  have hprice := Nat.mod_eq_of_lt h.price
  have hticker : u.tickerId < 2 ^ 64 :=
    h.tickerId.trans (by decide)
  have hheader := itchHeader_fits now u
  have hincremental := h.incremental
  unfold NanoExchange.itchMessage
  cases htype : u.type with
  | add =>
      refine ⟨_, rfl, ⟨hheader, h.marketOrderId, ?_, hticker, ?_⟩,
        Nat.mod_eq_of_lt h.tickerId, hqty, hprice⟩
      · exact Nat.mod_lt _ (by decide)
      · exact Nat.mod_lt _ (by decide)
  | cancel =>
      exact ⟨_, rfl, ⟨hheader, h.marketOrderId⟩,
        Nat.mod_eq_of_lt h.tickerId, hqty, hprice⟩
  | trade =>
      exact ⟨_, rfl, ⟨hheader, h.marketOrderId, Nat.mod_lt _ (by decide),
        h.matchId⟩, Nat.mod_eq_of_lt h.tickerId, hqty, hprice⟩
  | modify =>
      exact ⟨_, rfl, ⟨hheader, h.marketOrderId, h.newOrderId,
        Nat.mod_lt _ (by decide), Nat.mod_lt _ (by decide)⟩,
        Nat.mod_eq_of_lt h.tickerId, hqty, hprice⟩
  | snapshotStart | clear | snapshotEnd =>
      rw [htype] at hincremental
      exact hincremental.elim

/-- The side that an Add Order tells. -/
def sideOfIndicator (buySell : UInt8) : Side :=
  if buySell = 66 then .buy else .sell

/-- An execution takes shares off a quote, or takes it away. -/
def Quote.reduce (x : Quote) (shares : Quantity) : Option Quote :=
  if x.qty ≤ shares then none else some { x with qty := x.qty - shares }

/-- What a message does to the quotes of its ticker. -/
def ItchMessage.apply (f : Quotes) : ItchMessage → Quotes
  | .addOrder _ ref buySell shares _ price =>
      Function.update f ref (some ⟨sideOfIndicator buySell, price, shares⟩)
  | .orderDelete _ ref => Function.update f ref none
  | .orderExecuted _ ref shares _ =>
      match f ref with
      | none => f
      | some x => Function.update f ref (x.reduce shares)
  | .orderReplace _ old new shares price =>
      match f old with
      | none => f
      | some x =>
          Function.update (Function.update f old none) new
            (some ⟨x.side, price, shares⟩)

/-- The ticker of a message. -/
def ItchMessage.stockLocate : ItchMessage → TickerId
  | .addOrder h .. | .orderDelete h _ | .orderExecuted h ..
  | .orderReplace h .. => h.stockLocate

/-- The order that a message is about. -/
def ItchMessage.orderRefNum : ItchMessage → OrderId
  | .addOrder _ ref .. | .orderDelete _ ref | .orderExecuted _ ref ..
  | .orderReplace _ ref .. => ref

/-- A subscriber decodes a frame and applies it. -/
def ItchTypes.receive (T : ItchTypes) (F : TickerId → Quotes)
    (frame : List UInt8) : TickerId → Quotes :=
  match T.decode frame with
  | none => F
  | some m =>
      Function.update F m.stockLocate (m.apply (F m.stockLocate))

namespace ShadowBook

/-- The quotes of a ticker in a shadow book. -/
def viewAt (b : ShadowBook) (t : TickerId) : Quotes :=
  view (b.shadowBook[t]?.getD ∅)

/-- What an update does to the quotes of its ticker in the shadow book; a TRADE
of an unknown order does nothing. -/
def shadowStep (f : Quotes) (u : MEMarketUpdate) : Quotes :=
  (quoteStep f u).getD f

theorem viewAt_of_getElem?
    {b : ShadowBook} {t : TickerId} {orders : ShadowMap}
    (h : b.shadowBook[t]? = some orders) :
    b.viewAt t = view orders := by
  rw [viewAt, h, Option.getD_some]

theorem viewAt_init (n : Nat) : (init n).viewAt = fun _ _ => none := by
  funext t m
  by_cases ht : t < n <;> simp [viewAt, init, view, ht]

/-- A change of one map. -/
theorem viewAt_modifyAt
    {b : ShadowBook} {t : TickerId} {orders : ShadowMap}
    (ho : b.shadowBook[t]? = some orders) (g : ShadowMap → ShadowMap) :
    ∃ b', b.modifyAt t g = .ok b' ∧
      b'.shadowBook.length = b.shadowBook.length ∧
      b'.viewAt = Function.update b.viewAt t (view (g orders)) := by
  have ht := (List.getElem?_eq_some_iff.mp ho).1
  refine ⟨{ b with
    shadowBook := b.shadowBook.set t (g orders)
    dirty := true }, ?_, List.length_set, ?_⟩
  · simp [modifyAt, ho]
  · funext t'
    by_cases htt : t' = t
    · subst htt
      simp [viewAt, List.getElem?_set_self ht]
    · have hne : t ≠ t' := fun e => htt e.symm
      simp [viewAt, List.getElem?_set_ne hne, Function.update_of_ne htt]

/-- **The shadow book follows `shadowStep`.** -/
theorem viewAt_applyToBook
    {b : ShadowBook} {u : MEMarketUpdate}
    (ht : u.tickerId < b.shadowBook.length) :
    ∃ b', b.applyToBook u = .ok b' ∧
      b'.shadowBook.length = b.shadowBook.length ∧
      b'.viewAt = Function.update b.viewAt u.tickerId
        (shadowStep (b.viewAt u.tickerId) u) := by
  obtain ⟨orders, ho⟩ : ∃ orders, b.shadowBook[u.tickerId]? = some orders :=
    ⟨_, List.getElem?_eq_getElem ht⟩
  have hview := viewAt_of_getElem? ho
  unfold applyToBook shadowStep quoteStep
  cases htype : u.type with
  | add =>
      obtain ⟨b', hb', hlen, hb⟩ := viewAt_modifyAt ho
        fun orders => orders.insert u.marketOrderId u
      refine ⟨b', hb', hlen, ?_⟩
      rw [hb, view_insert, hview]
      rfl
  | cancel =>
      obtain ⟨b', hb', hlen, hb⟩ := viewAt_modifyAt ho
        fun orders => orders.erase u.marketOrderId
      refine ⟨b', hb', hlen, ?_⟩
      rw [hb, view_erase, hview]
      rfl
  | modify =>
      obtain ⟨b', hb', hlen, hb⟩ := viewAt_modifyAt ho
        fun orders => (orders.erase u.marketOrderId).insert u.newOrderId
          (replacement u)
      refine ⟨b', hb', hlen, ?_⟩
      rw [hb, view_insert, view_erase, hview]
      rfl
  | trade =>
      simp only [ho]
      cases horder : orders.lookup u.marketOrderId with
      | none =>
          refine ⟨_, rfl, rfl, ?_⟩
          have hnone : b.viewAt u.tickerId u.marketOrderId = none := by
            rw [hview, view, horder]
            rfl
          rw [hnone]
          exact (Function.update_eq_self u.tickerId b.viewAt).symm
      | some order =>
          obtain ⟨b', hb', hlen, hb⟩ := viewAt_modifyAt ho
            fun orders => fill orders order u
          have hsome : b.viewAt u.tickerId u.marketOrderId =
              some order.quote := by
            rw [hview, view, horder]
            rfl
          refine ⟨b', hb', hlen, ?_⟩
          rw [hb, view_fill, hsome, ← hview]
          rfl
  | snapshotStart | clear | snapshotEnd =>
      exact ⟨b, rfl, rfl, (Function.update_eq_self u.tickerId b.viewAt).symm⟩

/-- What an update does to the quotes of the book. -/
def bookStep (F : TickerId → Quotes) (u : MEMarketUpdate) :
    TickerId → Quotes :=
  Function.update F u.tickerId (shadowStep (F u.tickerId) u)

theorem viewAt_foldlM_applyToBook
    {b : ShadowBook} {us : List MEMarketUpdate}
    (hus : ∀ u ∈ us, u.tickerId < b.shadowBook.length) :
    ∃ b', us.foldlM applyToBook b = .ok b' ∧
      b'.shadowBook.length = b.shadowBook.length ∧
      b'.viewAt = us.foldl bookStep b.viewAt := by
  induction us generalizing b with
  | nil => exact ⟨b, rfl, rfl, rfl⟩
  | cons u us ih =>
      obtain ⟨b₁, hb₁, hlen₁, hview₁⟩ :=
        viewAt_applyToBook (hus u List.mem_cons_self)
      obtain ⟨b', hb', hlen', hview'⟩ :=
        ih (b := b₁) fun v hv => hlen₁ ▸ hus v (List.mem_cons_of_mem _ hv)
      refine ⟨b', ?_, hlen'.trans hlen₁, ?_⟩
      · rw [List.foldlM_cons, hb₁, ok_bind, hb']
      · rw [List.foldl_cons, hview', hview₁]
        rfl

end ShadowBook

open ShadowBook in
/-- **A frame does to a subscriber what its update does to the shadow book**,
if a replaced order is quoted on the same side. -/
theorem ItchTypes.receive_encode
    (T : ItchTypes) {u : MEMarketUpdate} (hu : OnWire u) (now : Nat)
    {F : TickerId → Quotes}
    (hmodify : u.type = .modify →
      ∃ x, F u.tickerId u.marketOrderId = some x ∧ x.side = u.side) :
    T.receive F (T.layout.encode now u) = bookStep F u := by
  unfold bookStep
  obtain ⟨m, hm, hfits, hlocate, hqty, hprice⟩ := hu.itchMessage now
  rw [ItchLayout.encode, hm, receive, decode_bytes hfits]
  dsimp only
  unfold NanoExchange.itchMessage at hm
  cases htype : u.type with
  | add =>
      simp only [htype, Option.some.injEq] at hm
      obtain rfl := hm
      cases hside : u.side <;>
        simp [-Nat.reducePow, ItchMessage.stockLocate, ItchMessage.apply, shadowStep,
          quoteStep, htype, hlocate, hqty, hprice, sideOfIndicator,
          MEMarketUpdate.quote, hside]
  | cancel =>
      simp only [htype, Option.some.injEq] at hm
      obtain rfl := hm
      simp [-Nat.reducePow, ItchMessage.stockLocate, ItchMessage.apply, shadowStep, quoteStep,
        htype, hlocate]
  | trade =>
      simp only [htype, Option.some.injEq] at hm
      obtain rfl := hm
      cases hx : F u.tickerId u.marketOrderId with
      | none =>
          simp [-Nat.reducePow, ItchMessage.stockLocate, ItchMessage.apply, shadowStep,
            quoteStep, htype, hlocate, hx]
      | some x =>
          simp [-Nat.reducePow, ItchMessage.stockLocate, ItchMessage.apply, shadowStep,
            quoteStep, htype, hlocate, hqty, hx, Quote.reduce]
  | modify =>
      simp only [htype, Option.some.injEq] at hm
      obtain rfl := hm
      obtain ⟨x, hx, hside⟩ := hmodify htype
      simp [-Nat.reducePow, ItchMessage.stockLocate, ItchMessage.apply, shadowStep, quoteStep,
        htype, hlocate, hqty, hprice, hx, hside, MEMarketUpdate.quote]
  | snapshotStart | clear | snapshotEnd =>
      have hincremental := hu.incremental
      rw [htype] at hincremental
      exact hincremental.elim

/-- Every MODIFY of a stream names an order that the shadow book holds, on the
same side. -/
def ModifiesKnown (b : ShadowBook) (us : List MEMarketUpdate) : Prop :=
  Along (fun pre u => u.type = .modify →
    ∃ b' orders x, pre.foldlM ShadowBook.applyToBook b = .ok b' ∧
      b'.shadowBook[u.tickerId]? = some orders ∧
      orders.lookup u.marketOrderId = some x ∧ x.side = u.side) us

theorem ModifiesKnown.tail
    {b b' : ShadowBook} {u : MEMarketUpdate} {us : List MEMarketUpdate}
    (h : ModifiesKnown b (u :: us)) (hb' : b.applyToBook u = .ok b') :
    ModifiesKnown b' us := by
  intro pre v post hsplit hmodify
  have hv := h (u :: pre) v post (by rw [hsplit]; rfl) hmodify
  rwa [List.foldlM_cons, hb', ok_bind] at hv

/-- A subscriber that starts with the quotes of a book follows it. -/
theorem ItchTypes.foldl_receive
    (T : ItchTypes) {b : ShadowBook} {us : List MEMarketUpdate}
    {frames : List (List UInt8)}
    (hframes : List.Forall₂ (fun u frame => ∃ now,
      frame = T.layout.encode now u) us frames)
    (hwire : ∀ u ∈ us, OnWire u)
    (htickers : ∀ u ∈ us, u.tickerId < b.shadowBook.length)
    (hknown : ModifiesKnown b us) :
    frames.foldl T.receive b.viewAt =
      us.foldl ShadowBook.bookStep b.viewAt := by
  induction hframes generalizing b with
  | nil => rfl
  | @cons u frame us frames hframe hframes ih =>
      obtain ⟨now, rfl⟩ := hframe
      obtain ⟨b₁, hb₁, hlen₁, hview₁⟩ :=
        ShadowBook.viewAt_applyToBook (htickers u List.mem_cons_self)
      have hreceive := T.receive_encode (hwire u List.mem_cons_self) now
        (F := b.viewAt) fun hmodify => by
          obtain ⟨b', orders, x, hb', ho, hx, hside⟩ :=
            hknown [] u us rfl hmodify
          obtain rfl := Except.ok.inj hb'
          refine ⟨x.quote, ?_, hside⟩
          rw [ShadowBook.viewAt_of_getElem? ho, ShadowBook.view, hx]
          rfl
      have hrest := ih (fun v hv => hwire v (List.mem_cons_of_mem _ hv))
        (fun v hv => hlen₁ ▸ htickers v (List.mem_cons_of_mem _ hv))
        (hknown.tail hb₁)
      have hstep : ShadowBook.bookStep b.viewAt u = b₁.viewAt := hview₁.symm
      rw [List.foldl_cons, List.foldl_cons, hreceive, hstep, hrest]

/-- **The ITCH frames determine the shadow book.** -/
theorem wire_determines_shadow_book
    (T : ItchTypes) {n : Nat} {us : List MEMarketUpdate}
    {frames : List (List UInt8)}
    (hframes : List.Forall₂ (fun u frame => ∃ now,
      frame = T.layout.encode now u) us frames)
    (hwire : ∀ u ∈ us, OnWire u) (htickers : ∀ u ∈ us, u.tickerId < n)
    (hknown : ModifiesKnown (ShadowBook.init n) us) :
    ∃ b, us.foldlM ShadowBook.applyToBook (ShadowBook.init n) = .ok b ∧
      ∀ t, t < n → ∃ orders, b.shadowBook[t]? = some orders ∧
        ShadowBook.view orders =
          frames.foldl T.receive (fun _ _ => none) t := by
  have hlen : (ShadowBook.init n).shadowBook.length = n :=
    List.length_replicate
  have hrange : ∀ u ∈ us,
      u.tickerId < (ShadowBook.init n).shadowBook.length := by
    rwa [hlen]
  obtain ⟨b, hb, hblen, hview⟩ := ShadowBook.viewAt_foldlM_applyToBook hrange
  have hfollow := T.foldl_receive hframes hwire hrange hknown
  rw [ShadowBook.viewAt_init] at hview hfollow
  refine ⟨b, hb, fun t ht => ?_⟩
  have horders := List.getElem?_eq_getElem ((hblen.trans hlen).symm ▸ ht)
  refine ⟨_, horders, ?_⟩
  rw [← ShadowBook.viewAt_of_getElem? horders, hview, hfollow]

/-- A bid that is entered, replaced and partly filled. -/
theorem wire_determines_shadow_book_example :
    ∃ b, [(⟨0, 1, .add, .buy, 100, 10, orderIdInvalid, orderIdInvalid⟩ :
        MEMarketUpdate), ⟨0, 1, .modify, .buy, 101, 8, 2, orderIdInvalid⟩,
        ⟨0, 2, .trade, .buy, 101, 3, orderIdInvalid, 1⟩].foldlM
        ShadowBook.applyToBook (ShadowBook.init 1) = .ok b ∧
      ∀ t, t < 1 → ∃ orders, b.shadowBook[t]? = some orders ∧
        ShadowBook.view orders =
          [(ItchTypes.mk 65 68 69 85 (by decide)).layout.encode 5
            ⟨0, 1, .add, .buy, 100, 10, orderIdInvalid, orderIdInvalid⟩,
          (ItchTypes.mk 65 68 69 85 (by decide)).layout.encode 6
            ⟨0, 1, .modify, .buy, 101, 8, 2, orderIdInvalid⟩,
          (ItchTypes.mk 65 68 69 85 (by decide)).layout.encode 7
            ⟨0, 2, .trade, .buy, 101, 3, orderIdInvalid, 1⟩].foldl
            (ItchTypes.mk 65 68 69 85 (by decide)).receive
            (fun _ _ => none) t := by
  refine wire_determines_shadow_book _
    (.cons ⟨5, rfl⟩ (.cons ⟨6, rfl⟩ (.cons ⟨7, rfl⟩ .nil))) ?_ (by decide) ?_
  · intro u hu
    simp only [List.mem_cons, List.not_mem_nil, or_false] at hu
    rcases hu with rfl | rfl | rfl
    all_goals exact ⟨trivial, by decide, by decide, by decide, by decide,
      by decide, by decide⟩
  · refine (along_concat (l := [_, _])).mpr
      ⟨(along_concat (l := [_])).mpr
        ⟨(along_concat (l := [])).mpr ⟨along_nil, nofun⟩, fun _ => ?_⟩, nofun⟩
    exact ⟨_, _, _, rfl, rfl, rfl, rfl⟩

end NanoExchange
