import NanoExchange.Engine.PoolUse

/-!
# How much a run may let rest

A book has an object for each of `size` resting orders, and levels for some
prices: all prices in the map book, those below `MAX_PRICE_LEVELS` in the
vector book.  Nothing else can make a request fail.  `Exactly` is the step of
this, and `run_ok_iff` the statement for whole runs: they go through exactly if
the orders that the market lets rest have room after every request.
-/

namespace NanoExchange

open Lib

/-- The orders of a ladder have room in a book: there is an object for each of
them, and a level. -/
structure Ladder.Fits (Lv : Type) [LevelTable Lv] [LawfulLevels Lv]
    (size : Nat) (A : Ladder) : Prop where
  objects : A.orders.length ≤ size
  levels : ∀ o ∈ A.orders, LawfulLevels.Valid Lv o.price

section Exactly

variable {Lv P : Type} [LevelTable Lv] [LawfulLevels Lv] [ObjectPool P]

/-- An operation of a book ends as the ladder says, with the reports of the
dialect `d`, in a tight book; and fails only if what the ladder says does not
fit. -/
structure Exactly (size : Nat) (d : Dialect) (ch : Channel)
    (x : Except Fault (OrderBook Lv P × Channel)) (res : StepResult) :
    Prop where
  ok : ∀ b' ch', x = .ok (b', ch') →
    Rep b' res.ladder ∧ b'.Tight size ∧
      ch' = ch.report d res.matchIds res.events
  error : ∀ e, x = .error e → ¬ res.ladder.Fits Lv size

variable {size : Nat} {d : Dialect} {ch : Channel} {b : OrderBook Lv P}
  {res : StepResult}

theorem Exactly.of_ok
    {ch' : Channel} (hrep : Rep b res.ladder) (ht : b.Tight size)
    (hch : ch' = ch.report d res.matchIds res.events) :
    Exactly size d ch (.ok (b, ch')) res where
  ok b' ch'' hok := by
    obtain ⟨rfl, rfl⟩ := Prod.mk.inj (Except.ok.inj hok)
    exact ⟨hrep, ht, hch⟩
  error e herror := by
    cases herror

/-- An event reported before the operation is one more event of it. -/
theorem Exactly.cons
    {e : Event} {x : Except Fault (OrderBook Lv P × Channel)}
    (h : Exactly size d (ch.report d ch.matchIds [e]) x res) :
    Exactly size d ch x { res with events := e :: res.events } where
  ok b' ch' hok := by
    obtain ⟨hrep, ht, hch⟩ := h.ok b' ch' hok
    refine ⟨hrep, ht, ?_⟩
    rw [hch, Channel.report_cons]
  error := h.error

end Exactly

namespace Rep

variable {Lv P : Type} [LevelTable Lv] [LawfulLevels Lv] [ObjectPool P]
  {size : Nat} {d : Dialect} {b : OrderBook Lv P} {A : Ladder}

theorem cancelWith_exactly
    (h : Rep b A) (ht : b.Tight size) (d : Dialect) (ch : Channel)
    {r : MEClientRequest} (haction : r.action = .cancel) :
    Exactly size d ch
      (b.cancelWith d.cancelLeaves ch r.tickerId r.clientId r.clientOrderId
        r.qty r.orderToken)
      (A.step ch.matchIds r) := by
  obtain ⟨b', hb', hrep⟩ := h.cancelWith_succeeds d ch haction
  have ht' := (OrderBook.shrinks_cancelWith hb').tight size ht
  rw [hb']
  exact .of_ok hrep ht' rfl

variable [BoundedPool P]

/-- **An order that is to rest** finds room exactly if it fits. -/
theorem insert_exactly
    (h : Rep b A) (ht : b.Tight size) {a : OrderArgs}
    (hfresh : ∀ o ∈ A.orders, o.key ≠ a.toInfo.key) :
    (∀ b', b.insert a = .ok b' →
      Rep b' (A.insert a.toInfo) ∧ b'.Tight size) ∧
    ∀ e, b.insert a = .error e → ¬ (A.insert a.toInfo).Fits Lv size := by
  constructor
  · intro b' hb'
    refine ⟨?_, ht.insert (h.find_eq_none hfresh) hb'⟩
    rcases h.insert (OrderBook.valid_of_insert hb') hfresh with
      hfull | ⟨b₁, hb₁, hrep⟩
    · cases hb'.symm.trans hfull
    · obtain rfl := Except.ok.inj (hb₁.symm.trans hb')
      exact hrep
  · intro e herror hfits
    have hmem : a.toInfo ∈ (A.insert a.toInfo).orders :=
      Ladder.mem_insert_orders.mpr (.inl rfl)
    have hvalid : LawfulLevels.Valid Lv a.price := hfits.levels _ hmem
    have hfull := (BoundedPool.exhausted_iff ht.pool).mp
      (h.allocate_eq_none hvalid hfresh herror)
    rw [ht.ncard_live h] at hfull
    have hroom := hfits.objects
    rw [(A.insert_orders_perm a.toInfo).length_eq, List.length_cons] at hroom
    omega

/-- **An order that is entered**, with what follows the sweep given as a
program, as in `Rep.enter`. -/
theorem enter_exactly
    (hd : TradesIn Lv d) (h : Rep b A) (ht : b.Tight size) (hA : A.WF)
    (ch : Channel) (a : OrderArgs) (replacing : Bool)
    (hfresh : ∀ o ∈ A.orders, o.key ≠ (a.clientId, a.clientOrderId))
    {k : OrderBook Lv P × Channel × Quantity →
      Except Fault (OrderBook Lv P × Channel)}
    (hfilled : ∀ b' ch', k (b', ch', 0) = .ok (b', ch'))
    (hrest : ∀ b' ch' q, q ≠ 0 → a.orderType = .goodTillCancel →
      k (b', ch', q) =
        b'.insert { a with initialQuantity := q } >>= fun b'' =>
          .ok (b'', ch'.report d ch'.matchIds [.rested replacing a q]))
    (hkill : ∀ b' ch' q, q ≠ 0 → a.orderType = .fillAndKill →
      k (b', ch', q) =
        .ok (b', ch'.report d ch'.matchIds [.killed replacing a q])) :
    Exactly size d ch (b.matchOrder ch a >>= k)
      (A.enter ch.matchIds replacing a) := by
  obtain ⟨b₁, hmatch, hrep⟩ :=
    h.matchOrder hd ch a fun o ho => (hA.quantity o ho).1
  have ht₁ := (OrderBook.shrinks_matchOrder hmatch).tight size ht
  rw [hmatch, ok_bind]
  rcases A.enter_cases ch.matchIds replacing a with
    ⟨hrem, heq⟩ | ⟨hrem, htype, heq⟩ | ⟨hrem, htype, heq⟩
  · rw [heq, hrem, hfilled]
    exact .of_ok hrep ht₁ rfl
  · have hfresh₁ : ∀ o ∈ (A.swept ch.matchIds a).orders,
        o.key ≠ (a.clientId, a.clientOrderId) := by
      intro o ho
      obtain ⟨o', ho', x, -, -, rfl⟩ :=
        (Ladder.trims_swept hA ch.matchIds a).orders.shrinks o ho
      exact hfresh o' ho'
    obtain ⟨hins, hfail⟩ := hrep.insert_exactly ht₁ (a := { a with
      initialQuantity := (A.sweepBy ch.matchIds a).remaining }) hfresh₁
    rw [heq, hrest _ _ _ hrem htype]
    constructor
    · intro b' ch' hok
      obtain ⟨b₂, hb₂, hok⟩ := ok_of_bind hok
      obtain ⟨rfl, rfl⟩ := Prod.mk.inj (Except.ok.inj hok)
      obtain ⟨hrep₂, ht₂⟩ := hins b₂ hb₂
      refine ⟨hrep₂, ht₂, ?_⟩
      rw [Channel.report_append]
      rfl
    · intro e herror
      cases hb₂ : OrderBook.insert b₁ { a with
          initialQuantity := (A.sweepBy ch.matchIds a).remaining } with
      | ok b₂ =>
          rw [hb₂] at herror
          cases herror
      | error e' => exact hfail e' hb₂
  · rw [heq, hkill _ _ _ hrem htype]
    refine .of_ok hrep ht₁ ?_
    rw [Channel.report_append]
    rfl

/-- `addOrder` -/
theorem addOrder_exactly
    (hd : TradesIn Lv d) (h : Rep b A) (ht : b.Tight size) (hA : A.WF)
    (ch : Channel) {r : MEClientRequest} (haction : r.action = .new)
    (hfresh : A.Fresh r) :
    Exactly size d ch
      (b.addOrder ch r.tickerId r.clientId r.clientOrderId r.type r.price
        r.qty r.side r.orderToken)
      (A.step ch.matchIds r) := by
  have hkey : (r.clientId, r.clientOrderId) ∈ r.newKey := by
    simp [MEClientRequest.newKey, haction]
  have hstep : A.step ch.matchIds r =
      { A.bump.enter ch.matchIds false (A.newArgs r) with
        events := .accepted (A.newArgs r) ::
          (A.bump.enter ch.matchIds false (A.newArgs r)).events } := by
    simp only [Ladder.step, haction]
  rw [hstep]
  unfold OrderBook.addOrder
  rw [h.next]
  refine (h.bump.enter_exactly hd ((OrderBook.shrinks_bump b).tight size ht)
    ((Ladder.trims_bump hA).wf hA)
    (ch.report d ch.matchIds [.accepted (A.newArgs r)]) (A.newArgs r) false
    (hfresh _ hkey) (fun _ _ => rfl) ?_ ?_).cons
  · intro b' ch' q hq htype
    have htype : r.type = .goodTillCancel := htype
    simp [Nat.pos_of_ne_zero hq, htype, Channel.sendMarketUpdate,
      Channel.report, Event.outputs, Ladder.newArgs]
  · intro b' ch' q hq htype
    have htype : r.type = .fillAndKill := htype
    simp [Nat.pos_of_ne_zero hq, htype, Channel.sendClientResponse,
      Channel.report, Event.outputs, Ladder.newArgs]

/-- `replaceOrder` gives the object of the old order back before the
replacement may take one. -/
theorem replaceWith_exactly
    (hd : TradesIn Lv d) (h : Rep b A) (ht : b.Tight size) (hA : A.WF)
    {k : OrderArgs → OrderBook Lv P × Channel × Quantity →
      Except Fault (OrderBook Lv P × Channel)} (hk : Settles d k)
    (ch : Channel) {r : MEClientRequest} (haction : r.action = .modify)
    (hfresh : A.Fresh r) :
    Exactly size d ch
      (b.replaceWith k ch r.tickerId r.clientId r.clientOrderId
        r.newClientOrderId r.type r.price r.qty r.orderToken)
      (A.step ch.matchIds r) := by
  rcases h.lookup_cases r.clientId r.clientOrderId with
    ⟨hc, hfind⟩ | ⟨m, hc, hi, hfind⟩ | ⟨m, p, mo, hc, hi, hf, hmo, hfind⟩
  · rw [Ladder.step_modify_unknown _ haction hfind]
    simp only [OrderBook.replaceWith, hc, ← ch.report_rejection d r]
    exact .of_ok h ht rfl
  · rw [Ladder.step_modify_unknown _ haction hfind]
    simp only [OrderBook.replaceWith, hc, hi, ← ch.report_rejection d r]
    exact .of_ok h ht rfl
  · by_cases hbad : r.newClientOrderId = 0 ∨ r.qty = 0
    · rw [Ladder.step_modify_found _ haction hfind, if_pos hbad]
      simp only [OrderBook.replaceWith, hc, hi, if_pos hbad,
        ← ch.report_rejection d r]
      exact .of_ok h ht rfl
    · have hkey := (Ladder.mem_of_find? hfind).2
      obtain ⟨b₁, hb₁, hrep⟩ := h.bump.remove hf
      have ht₁ := (OrderBook.shrinks_remove hb₁).tight size
        ((OrderBook.shrinks_bump b).tight size ht)
      have htrims : A.Trims (A.bump.erase (r.clientId, r.clientOrderId)) :=
        (Ladder.trims_bump hA).trans
          (Ladder.trims_erase ((Ladder.trims_bump hA).wf hA) _)
      have hnew : (r.clientId, r.newClientOrderId) ∈ r.newKey := by
        simp [MEClientRequest.newKey, haction]
      have hfresh₁ : ∀ o ∈ (A.bump.erase
          (r.clientId, r.clientOrderId)).orders,
          o.key ≠ (r.clientId, r.newClientOrderId) := by
        intro o ho
        obtain ⟨o', ho', x, -, -, rfl⟩ := htrims.orders.shrinks o ho
        exact hfresh _ hnew o' ho'
      rw [Ladder.step_modify_found _ haction hfind, if_neg hbad, hkey]
      simp only [OrderBook.replaceWith, hc, hi, if_neg hbad,
        Heap.read_ok hmo, ok_bind, h.next, hb₁]
      let a := A.replacementArgs r mo.info.side
      rw [← ch.report_modified d]
      exact (hrep.enter_exactly hd ht₁ (htrims.wf hA)
        (ch.report d ch.matchIds [.modified a mo.info]) a true hfresh₁
        (hk.filled a) (hk.rested a) (hk.killed a)).cons

end Rep

/-- An implementation that performs a request as the ladder does whenever the
result fits. -/
class ThriftyBook (Lv : Type) [LevelTable Lv] [LawfulLevels Lv]
    [BookImpl Lv] [LawfulBook Lv] : Prop where
  cancelOrder_exactly : ∀ {P : Type} [ObjectPool P] [BoundedPool P]
    {size : Nat} {b : OrderBook Lv P} {A : Ladder} (ch : Channel)
    {r : MEClientRequest},
    Rep b A → b.Tight size → r.action = .cancel →
      Exactly size (LawfulBook.dialect Lv) ch
        (BookImpl.cancelOrder b ch r.tickerId r.clientId r.clientOrderId r.qty
          r.orderToken)
        (A.step ch.matchIds r)
  replaceOrder_exactly : ∀ {P : Type} [ObjectPool P] [BoundedPool P]
    {size : Nat} {b : OrderBook Lv P} {A : Ladder} (ch : Channel)
    {r : MEClientRequest},
    Rep b A → b.Tight size → A.WF → r.action = .modify → A.Fresh r →
      Exactly size (LawfulBook.dialect Lv) ch
        (BookImpl.replaceOrder b ch r.tickerId r.clientId r.clientOrderId
          r.newClientOrderId r.type r.price r.qty r.orderToken)
        (A.step ch.matchIds r)

instance : ThriftyBook MapLevels where
  cancelOrder_exactly ch _ h ht haction :=
    h.cancelWith_exactly ht Dialect.map ch haction
  replaceOrder_exactly ch _ h ht hA haction hfresh :=
    h.replaceWith_exactly MapBook.trades ht hA MapBook.settles_rest ch haction
      hfresh

instance : ThriftyBook VectorLevels where
  cancelOrder_exactly ch _ h ht haction :=
    h.cancelWith_exactly ht Dialect.vector ch haction
  replaceOrder_exactly ch _ h ht hA haction hfresh :=
    h.replaceWith_exactly VectorBook.trades ht hA VectorBook.settles_rest ch
      haction hfresh

section Requests

variable {Lv P : Type} [LevelTable Lv] [LawfulLevels Lv] [BookImpl Lv]
variable [LawfulBook Lv] [ThriftyBook Lv] [ObjectPool P] [BoundedPool P]

/-- **A request goes through exactly if the result fits.** -/
theorem Rep.processRequest_exactly
    {b : OrderBook Lv P} {A : Ladder} (h : Rep b A) {size : Nat}
    (ht : b.Tight size) (hA : A.WF) (ch : Channel) {r : MEClientRequest}
    (hfresh : A.Fresh r) :
    Exactly size (LawfulBook.dialect Lv) ch (b.processRequest ch r)
      (A.step ch.matchIds r) := by
  cases haction : r.action with
  | new =>
      simp only [OrderBook.processRequest, haction]
      exact h.addOrder_exactly LawfulBook.trades ht hA ch haction hfresh
  | cancel =>
      simp only [OrderBook.processRequest, haction]
      exact ThriftyBook.cancelOrder_exactly ch h ht haction
  | modify =>
      simp only [OrderBook.processRequest, haction]
      exact ThriftyBook.replaceOrder_exactly ch h ht hA haction hfresh

end Requests

/-- Tickers that no request is for have no orders. -/
theorem Market.run_ladder_of_out
    {n : Nat} {rs : List MEClientRequest} (htickers : TickersInRange n rs)
    {t : TickerId} (ht : n ≤ t) :
    (Market.run rs).ladder t = Ladder.empty := by
  induction rs using List.reverseRecOn with
  | nil => rfl
  | append_singleton rs r ih =>
      have hr : r.tickerId < n := htickers r (by simp)
      have hne : t ≠ r.tickerId := (Nat.lt_of_lt_of_le hr ht).ne'
      rw [Market.run_append, Market.next_ladder_of_ne _ hne]
      exact ih fun r' hr' => htickers r' (List.mem_append_left _ hr')

namespace MatchingEngine

variable {Lv : Type} [LevelTable Lv] [LawfulLevels Lv] [BookImpl Lv]
variable [LawfulBook Lv] {P : Type} [ObjectPool P] {n size : Nat}

/-- The engine `e` represents the market `M`, and all its books are tight. -/
structure Holds (n size : Nat) (e : MatchingEngine Lv P) (M : Market) :
    Prop where
  represents : Represents n e M
  tight : ∀ b ∈ e.tickerOrderBook, b.Tight size

theorem Holds.init (n size : Nat) :
    Holds n size (MatchingEngine.init n size : MatchingEngine Lv P)
      Market.start where
  represents := .init n size
  tight b hb := by
    rw [List.eq_of_mem_replicate hb]
    exact .init size

/-- One book and the channel are replaced. -/
theorem Holds.set
    {e : MatchingEngine Lv P} {M : Market} (h : Holds n size e M)
    {r : MEClientRequest} {b : OrderBook Lv P}
    (hrep : Rep b (M.respond r).ladder) (ht : b.Tight size) :
    Holds n size
      { tickerOrderBook := e.tickerOrderBook.set r.tickerId b
        channel := (M.next r).sent (LawfulBook.dialect Lv) }
      (M.next r) where
  represents := by
    constructor
    · simpa using h.represents.books
    · intro t b' hb'
      by_cases ht : t = r.tickerId
      · subst ht
        rw [Market.next_ladder_self]
        rcases List.mem_or_eq_of_mem_set (List.mem_of_getElem? hb') with _ | _
        · rw [List.getElem?_set_self'] at hb'
          cases hold : e.tickerOrderBook[r.tickerId]? with
          | none =>
              rw [hold] at hb'
              cases hb'
          | some b₁ =>
              rw [hold] at hb'
              obtain rfl := Option.some.inj hb'
              exact hrep
        · subst_vars
          exact hrep
      · have ht' : r.tickerId ≠ t := fun heq => ht heq.symm
        rw [List.getElem?_set_ne ht'] at hb'
        rw [Market.next_ladder_of_ne _ ht]
        exact h.represents.book t b' hb'
    · rfl
  tight b' hb' := by
    rcases List.mem_or_eq_of_mem_set hb' with hold | rfl
    · exact h.tight b' hold
    · exact ht

variable [BoundedPool P]

/-- The orders of every book have room in it. -/
theorem Holds.fits
    {e : MatchingEngine Lv P} {M : Market} (h : Holds n size e M)
    {t : TickerId} (ht : t < n) :
    (M.ladder t).Fits Lv size := by
  obtain ⟨b, hb⟩ : ∃ b, e.tickerOrderBook[t]? = some b :=
    ⟨_, List.getElem?_eq_getElem (h.represents.books.symm ▸ ht)⟩
  have hrep := h.represents.book t b hb
  have htight := h.tight b (List.mem_of_getElem? hb)
  constructor
  · rw [← htight.ncard_live hrep]
    exact htight.pool.ncard_le.2
  · intro o ho
    obtain ⟨s, hs⟩ := Ladder.mem_orders.mp ho
    exact hrep.valid hs

variable [ThriftyBook Lv]

/-- One request. -/
theorem Holds.processClientRequest
    {e : MatchingEngine Lv P} {M : Market} (h : Holds n size e M)
    {r : MEClientRequest} {rs : List MEClientRequest}
    (hM : M.Ready (r :: rs)) :
    (∀ e', e.processClientRequest r = .ok e' → Holds n size e' (M.next r)) ∧
    ∀ f, e.processClientRequest r = .error f →
      ¬ (r.tickerId < n ∧
        ((M.next r).ladder r.tickerId).Fits Lv size) := by
  unfold MatchingEngine.processClientRequest
  cases hb : e.tickerOrderBook[r.tickerId]? with
  | none =>
      have hout := List.getElem?_eq_none_iff.mp hb
      rw [h.represents.books] at hout
      refine ⟨fun e' hok => ?_, fun f _ hfits => ?_⟩
      · cases hok
      · exact absurd hfits.1 (Nat.not_lt_of_le hout)
  | some b =>
      have hids : e.channel.matchIds = M.matchIds := by
        rw [h.represents.sent]
        rfl
      have hstep := (h.represents.book _ _ hb).processRequest_exactly
        (h.tight b (List.mem_of_getElem? hb)) (hM.wf _) e.channel
        (hM.admits _).head
      rw [hids] at hstep
      constructor
      · intro e' hok
        obtain ⟨⟨b₁, ch₁⟩, hb₁, hok⟩ := ok_of_bind hok
        obtain rfl := Except.ok.inj hok
        obtain ⟨hrep, ht, hch⟩ := hstep.ok b₁ ch₁ hb₁
        have hsent : ch₁ = (M.next r).sent (LawfulBook.dialect Lv) := by
          rw [hch, h.represents.sent]
          simp [Channel.report, Market.sent, Market.next, Market.respond]
        rw [hsent]
        exact h.set hrep ht
      · intro f herror hfits
        rw [Market.next_ladder_self] at hfits
        cases hb₁ : b.processRequest e.channel r with
        | ok s =>
            dsimp only at herror
            rw [hb₁] at herror
            cases herror
        | error f' => exact hstep.error f' hb₁ hfits.2

/-- **A run that goes through is a run of the market**, whatever the prices of
its requests are. -/
theorem run_holds
    {rs : List MEClientRequest} (hfresh : FreshKeys rs)
    {e : MatchingEngine Lv P} (hrun : run Lv P n size rs = .ok e) :
    Holds n size e (Market.run rs) := by
  induction rs using List.reverseRecOn generalizing e with
  | nil =>
      obtain rfl := Except.ok.inj hrun
      exact .init n size
  | append_singleton rs r ih =>
      have hfresh₁ : FreshKeys rs :=
        hfresh.sublist ((List.sublist_append_left rs [r]).filterMap _)
      obtain ⟨e₁, hrun₁, hlast⟩ := foldlM_append_ok hrun
      obtain ⟨e₂, hstep, hlast⟩ := ok_of_bind hlast
      obtain rfl := Except.ok.inj hlast
      rw [Market.run_append]
      exact ((ih hfresh₁ hrun₁).processClientRequest
        (Market.run_ready hfresh)).1 _ hstep

/-- Requests that go through are for the books there are. -/
theorem run_tickers
    {rs : List MEClientRequest} (hfresh : FreshKeys rs)
    {e : MatchingEngine Lv P} (hrun : run Lv P n size rs = .ok e) :
    TickersInRange n rs := by
  induction rs using List.reverseRecOn generalizing e with
  | nil => exact fun r hr => absurd hr List.not_mem_nil
  | append_singleton rs r ih =>
      have hfresh₁ : FreshKeys rs :=
        hfresh.sublist ((List.sublist_append_left rs [r]).filterMap _)
      obtain ⟨e₁, hrun₁, hlast⟩ := foldlM_append_ok hrun
      obtain ⟨e₂, hstep, -⟩ := ok_of_bind hlast
      have hr := tickerId_lt_of_ok hstep
      rw [(run_holds hfresh₁ hrun₁).represents.books] at hr
      intro r' hr'
      rcases List.mem_append.mp hr' with hold | hnew
      · exact ih hfresh₁ hrun₁ r' hold
      · rw [List.mem_singleton.mp hnew]
        exact hr

/-- **A run goes through exactly if every request is for one of the books, and
after each of them the orders that are to rest have room**: in every book there
are no more of them than its pool has objects, at prices that have a level.
So an order that is filled or dropped at once may have any price. -/
theorem run_ok_iff
    {rs : List MEClientRequest} (hfresh : FreshKeys rs) :
    (∃ e, run Lv P n size rs = .ok e) ↔
      TickersInRange n rs ∧ ∀ pre post, rs = pre ++ post →
        ∀ t, ((Market.run pre).ladder t).orders.length ≤ size ∧
          ∀ o ∈ ((Market.run pre).ladder t).orders,
            LawfulLevels.Valid Lv o.price := by
  constructor
  · rintro ⟨e, hrun⟩
    have htickers := run_tickers hfresh hrun
    refine ⟨htickers, ?_⟩
    rintro pre post rfl t
    obtain ⟨e₁, hrun₁, -⟩ := foldlM_append_ok hrun
    have hfresh₁ : FreshKeys pre :=
      hfresh.sublist ((List.sublist_append_left pre post).filterMap _)
    by_cases ht : t < n
    · have hfits := (run_holds hfresh₁ hrun₁).fits ht
      exact ⟨hfits.objects, hfits.levels⟩
    · rw [Market.run_ladder_of_out
        (fun r hr => htickers r (List.mem_append_left post hr))
        (Nat.le_of_not_lt ht)]
      exact ⟨Nat.zero_le size, by simp [Ladder.empty, Ladder.orders]⟩
  · rintro ⟨htickers, hroom⟩
    induction rs using List.reverseRecOn with
    | nil => exact ⟨_, rfl⟩
    | append_singleton rs r ih =>
        have hfresh₁ : FreshKeys rs :=
          hfresh.sublist ((List.sublist_append_left rs [r]).filterMap _)
        obtain ⟨e, hrun⟩ := ih hfresh₁
          (fun r' hr' => htickers r' (List.mem_append_left [r] hr'))
          fun pre post hsplit => hroom pre (post ++ [r]) (by
            rw [hsplit, List.append_assoc])
        have hstep := ((run_holds hfresh₁ hrun).processClientRequest
          (Market.run_ready hfresh)).2
        cases hlast : e.processClientRequest r with
        | ok e' =>
            refine ⟨e', ?_⟩
            unfold run at hrun ⊢
            rw [List.foldlM_append, hrun, ok_bind, List.foldlM_cons, hlast]
            rfl
        | error f =>
            obtain ⟨hobjects, hlevels⟩ :=
              hroom (rs ++ [r]) [] (List.append_nil _).symm r.tickerId
            rw [Market.run_append] at hobjects hlevels
            exact absurd ⟨htickers r (by simp), hobjects, hlevels⟩
              (hstep f hlast)

/-- The vector book has no level for the second ask, which is to rest. -/
theorem run_ok_iff_example :
    ¬ ∃ e, run VectorLevels ScanPool 1 4
      [.make .new 1 0 1 .goodTillCancel .sell 100 5,
        .make .new 2 0 1 .goodTillCancel .sell 256000 5] = .ok e := by
  have hfresh : FreshKeys [.make .new 1 0 1 .goodTillCancel .sell 100 5,
      .make .new 2 0 1 .goodTillCancel .sell 256000 5] := by
    decide
  intro hok
  have hlevels := (((run_ok_iff hfresh).mp hok).2 _ []
    (List.append_nil _).symm 0).2
  obtain ⟨o, ho, hprice⟩ : ∃ o ∈ ((Market.run
      [.make .new 1 0 1 .goodTillCancel .sell 100 5,
        .make .new 2 0 1 .goodTillCancel .sell 256000 5]).ladder 0).orders,
      o.price = maxPriceLevels := by
    decide
  exact Nat.ne_of_lt (hlevels o ho) hprice

end MatchingEngine

end NanoExchange
