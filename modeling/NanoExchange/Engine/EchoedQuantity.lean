import NanoExchange.Engine.Cancels
import NanoExchange.Engine.Origins

/-!
# The quantity that responses echo

`MEClientResponse::qty_` is to echo the total original shares of the order.
The responses to the owner of an incoming order do; those to the owner of a
resting order echo `initialQuantity_`, and `insert` has set that to the
remainder it was called with.  So an order that is filled in part on entry is
reported with its total at first, and with the remainder from then on.

`responses_echo_total_iff` says that nothing else goes wrong.
-/

namespace NanoExchange

open Lib

namespace Ladder

variable {A : Ladder} {r : MEClientRequest} {n : OrderId}
variable {rs : List MEClientRequest}

/-- The request enters an order that is filled in part, and the rest of it
comes to rest. -/
def RestsInPart (A : Ladder) (r : MEClientRequest) : Prop :=
  ∃ s, A.Enters r s ∧ r.type = .goodTillCancel ∧
    0 < A.available s r.price ∧ A.available s r.price < r.qty

/-- What is left of an order that rests is less than was asked for exactly if
it has been filled in part. -/
theorem LetsRest.qty_eq_iff {s : Side} {q : Quantity}
    (h : A.LetsRest r s q) : q = r.qty ↔ ¬ A.RestsInPart r := by
  obtain ⟨hs, htype, hpos, rfl⟩ := h
  have hlt : A.available s r.price < r.qty :=
    Nat.lt_of_sub_pos (Nat.pos_of_ne_zero hpos)
  constructor
  · rintro heq ⟨s', hs', -, hsome, -⟩
    obtain rfl := hs.unique hs'
    exact Nat.ne_of_lt (Nat.sub_lt (hsome.trans hlt) hsome) heq
  · intro hnot
    by_cases hzero : A.available s r.price = 0
    · rw [hzero, Nat.sub_zero]
    · exact absurd ⟨s, hs, htype, Nat.pos_of_ne_zero hzero, hlt⟩ hnot

theorem Reports.mem {o : OrderInfo} (h : A.Reports r o) : o ∈ A.orders := by
  rcases h with ⟨-, hfind, -⟩ | ⟨s, -, hreached⟩
  · exact (mem_of_find? hfind).1
  · exact mem_orders_of_side hreached.mem

theorem EntersUnder.mono
    {m : OrderId} {pre post : List MEClientRequest} {s : Side}
    (h : EntersUnder n rs m pre r s) :
    EntersUnder n (rs ++ post) m pre r s := by
  obtain ⟨rest, rfl⟩ := h.split
  exact ⟨⟨rest ++ post, by rw [List.append_assoc, List.cons_append]⟩,
    h.enters, h.id⟩

/-- The quantity `q`, reported under the id `m`, is that of the request of the
run that has entered the order. -/
def Echoes (n : OrderId) (rs : List MEClientRequest)
    (p : OrderId × Quantity) : Prop :=
  (∃ pre r s, EntersUnder n rs p.1 pre r s) ∧
    ∀ pre r s, EntersUnder n rs p.1 pre r s → p.2 = r.qty

/-- One request that has entered the order is the one. -/
theorem EntersUnder.echoes_iff
    {m : OrderId} {pre : List MEClientRequest} {s : Side}
    (h : EntersUnder n rs m pre r s) (hfresh : FreshKeys rs)
    (hlen : rs.length + 1 < wordSize) (q : Quantity) :
    Echoes n rs (m, q) ↔ q = r.qty := by
  constructor
  · exact fun hall => hall.2 pre r s h
  · rintro rfl
    refine ⟨⟨pre, r, s, h⟩, fun pre' r' s' h' => ?_⟩
    obtain ⟨-, rfl, -⟩ := h.unique h' hfresh hlen
    rfl

/-- **What a resting order is reported with** is its total exactly if it has
not been filled in part on entry. -/
theorem echoes_resting_iff
    {post : List MEClientRequest} (hfresh : FreshKeys (rs ++ post))
    (hlen : (rs ++ post).length + 1 < wordSize) {o : OrderInfo}
    (ho : o ∈ (run n rs).ladder.orders) :
    Echoes n (rs ++ post) (o.marketOrderId, o.initialQuantity) ↔
      ∀ pre r mid, rs = pre ++ r :: mid →
        (run n pre).ladder.RestsInPart r →
          o.marketOrderId ≠ (run n pre).ladder.nextMarketOrderId := by
  obtain ⟨pre, r, s, hunder, hrest⟩ := run_origin (freshKeys_of_append hfresh) ho
  rw [hunder.mono.echoes_iff hfresh hlen, hrest.qty_eq_iff]
  constructor
  · rintro hnot pre' r' mid hsplit hpart hid
    obtain ⟨s', hs', -⟩ := id hpart
    have hunder' : EntersUnder n rs o.marketOrderId pre' r' s' :=
      ⟨⟨mid, hsplit⟩, hs', hid.symm⟩
    obtain ⟨rfl, rfl, -⟩ := hunder.mono.unique hunder'.mono hfresh hlen
    exact hnot hpart
  · intro hall hpart
    obtain ⟨mid, hsplit⟩ := hunder.split
    exact hall pre r mid hsplit hpart hunder.id.symm

/-- **When a run echoes the total of every order.** -/
theorem echoes_iff
    (hfresh : FreshKeys rs) (hlen : rs.length + 1 < wordSize) :
    (∀ e ∈ (run n rs).events, ∀ p ∈ e.echoes, Echoes n rs p) ↔
      ∀ pre r mid r' post, rs = pre ++ r :: mid ++ r' :: post →
        (run n pre).ladder.RestsInPart r → ∀ o,
          (run n (pre ++ r :: mid)).ladder.Reports r' o →
            o.marketOrderId ≠ (run n pre).ladder.nextMarketOrderId := by
  rw [forall_events_run]
  constructor
  · rintro hall pre r mid r' post rfl hpart o ho
    have hwf := run_wf n (freshKeys_of_append hfresh)
    have hechoes := ((forall_step_echoes hwf _ r' _).mp
      (hall _ r' post rfl)).2 o ho
    exact (echoes_resting_iff hfresh hlen ho.mem).mp hechoes pre r mid rfl hpart
  · rintro hall pre r' post rfl
    have hwf := run_wf n (freshKeys_of_append hfresh)
    refine (forall_step_echoes hwf _ r' _).mpr ⟨fun s hs => ?_, fun o ho => ?_⟩
    · have hunder : EntersUnder n (pre ++ r' :: post) _ pre r' s :=
        ⟨⟨post, rfl⟩, hs, rfl⟩
      exact (hunder.echoes_iff hfresh hlen _).mpr rfl
    · refine (echoes_resting_iff hfresh hlen ho.mem).mpr ?_
      rintro pre' r mid rfl hpart
      exact hall pre' r mid r' post rfl hpart o ho

end Ladder

namespace OrderBook

variable {Lv P : Type} [LevelTable Lv]

/-- The request enters an order of side `s`: it is new, or an accepted
replacement. -/
def Enters (b : OrderBook Lv P) (r : MEClientRequest) (s : Side) : Prop :=
  (r.action = .new ∧ s = r.side) ∨
  (r.action = .modify ∧ ¬ b.MustReject r ∧ ∃ old, b.Named r old ∧ s = old.side)

/-- The request enters a GoodTillCancel order that can be filled in part, but
not completely, so that the rest of it comes to rest. -/
def RestsInPart (b : OrderBook Lv P) (r : MEClientRequest) : Prop :=
  ∃ s l, b.Enters r s ∧ r.type = .goodTillCancel ∧ b.Lists s.opposite l ∧
    let found := ((l.filter fun o => s.crosses r.price o.price).map
      OrderInfo.remainingQuantity).sum
    0 < found ∧ found < r.qty

/-- The request cancels shares of the resting order `o`, or fills it. -/
def Reports (b : OrderBook Lv P) (r : MEClientRequest) (o : OrderInfo) :
    Prop :=
  (r.action = .cancel ∧ ¬ b.MustReject r ∧ b.Named r o) ∨
  ∃ s l, b.Enters r s ∧ b.Lists s.opposite l ∧
    Reached (s.crosses r.price) r.qty l o

end OrderBook

namespace MapBook

variable (P : Type) [ObjectPool P] (size : Nat) (n : OrderId)

/-- In the run, the request `r` enters an order under the market order
id `m`. -/
def Creates (rs : List MEClientRequest) (m : OrderId) (r : MEClientRequest) :
    Prop :=
  ∃ (pre post : List MEClientRequest) (b : MapBook P) (ch : Channel) (s : Side),
    rs = pre ++ r :: post ∧ OrderBook.run MapLevels P size n pre = .ok (b, ch) ∧
      b.Enters r s ∧ b.nextMarketOrderId = m

/-- Every response that carries a market order id, rejections apart, echoes the
quantity of the request that created the order. -/
def EchoesTotal (rs : List MEClientRequest) (ch : Channel) : Prop :=
  ∀ x ∈ ch.responses, x.status ≠ .cancelRejected →
    (∃ r, Creates P size n rs x.marketOrderId r) ∧
      ∀ r, Creates P size n rs x.marketOrderId r → x.qty = r.qty

/-- In the run an order that was filled in part on entry is filled or canceled
while it rests. -/
def ReportsRemainder (rs : List MEClientRequest) : Prop :=
  ∃ (pre mid post : List MEClientRequest) (r r' : MEClientRequest)
    (b b' : MapBook P) (ch ch' : Channel) (o : OrderInfo),
    rs = pre ++ r :: mid ++ r' :: post ∧
      OrderBook.run MapLevels P size n pre = .ok (b, ch) ∧
      OrderBook.run MapLevels P size n (pre ++ r :: mid) = .ok (b', ch') ∧
      b.RestsInPart r ∧ b'.Reports r' o ∧
      o.marketOrderId = b.nextMarketOrderId

end MapBook

namespace Rep

variable {Lv P : Type} [LevelTable Lv] [LawfulLevels Lv] [ObjectPool P]
variable {b : OrderBook Lv P} {A : Ladder} {r : MEClientRequest}

theorem enters_iff (h : Rep b A) (hwf : A.WF) {s : Side} :
    b.Enters r s ↔ A.Enters r s := by
  unfold OrderBook.Enters Ladder.Enters
  cases haction : r.action with
  | new => simp
  | cancel => simp
  | modify =>
      have hreject := h.mustReject_iff hwf (r := r) (by simp [haction])
      unfold Ladder.TurnsDown at hreject
      simp only [haction] at hreject
      simp only [hreject, h.named_iff hwf, reduceCtorEq, false_and, true_and,
        false_or, not_forall]
      constructor
      · rintro ⟨⟨old, hfind, hgood⟩, old', hfind', rfl⟩
        obtain rfl := Option.some.inj (hfind.symm.trans hfind')
        exact ⟨old, hfind, hgood, rfl⟩
      · rintro ⟨old, hfind, hgood, rfl⟩
        exact ⟨⟨old, hfind, hgood⟩, old, hfind, rfl⟩

theorem restsInPart_iff (h : Rep b A) (hwf : A.WF) :
    b.RestsInPart r ↔ A.RestsInPart r := by
  constructor
  · rintro ⟨s, l, hs, htype, hl, hfound⟩
    obtain rfl := hl.unique (h.lists _)
    exact ⟨s, (h.enters_iff hwf).mp hs, htype, hfound⟩
  · rintro ⟨s, hs, htype, hfound⟩
    exact ⟨s, _, (h.enters_iff hwf).mpr hs, htype, h.lists _, hfound⟩

theorem reports_iff (h : Rep b A) (hwf : A.WF) {o : OrderInfo} :
    b.Reports r o ↔ A.Reports r o := by
  unfold OrderBook.Reports Ladder.Reports
  refine or_congr (and_congr_right fun haction => ?_) ?_
  · rw [h.mustReject_iff hwf (by simp [haction]), h.named_iff hwf]
    unfold Ladder.TurnsDown
    simp only [haction]
    constructor
    · rintro ⟨hdown, hfind⟩
      refine ⟨hfind, not_lt.mp fun hlt => hdown fun o' hfind' => ?_⟩
      obtain rfl := Option.some.inj (hfind.symm.trans hfind')
      exact hlt
    · rintro ⟨hfind, hle⟩
      exact ⟨fun hdown => absurd (hdown o hfind) (not_lt.mpr hle), hfind⟩
  · refine exists_congr fun s => ?_
    constructor
    · rintro ⟨l, hs, hl, hreached⟩
      obtain rfl := hl.unique (h.lists _)
      exact ⟨(h.enters_iff hwf).mp hs, hreached⟩
    · rintro ⟨hs, hreached⟩
      exact ⟨_, (h.enters_iff hwf).mpr hs, h.lists _, hreached⟩

end Rep

namespace MapBook

variable {P : Type} [ObjectPool P] {size : Nat} {n : OrderId}

/-- The book in between. -/
theorem run_prefix
    {pre post : List MEClientRequest} (hfresh : FreshKeys (pre ++ post))
    {s : MapBook P × Channel}
    (hrun : OrderBook.run MapLevels P size n (pre ++ post) = .ok s) :
    ∃ b ch, OrderBook.run MapLevels P size n pre = .ok (b, ch) ∧
      Rep b (Ladder.run n pre).ladder := by
  obtain ⟨⟨b, ch⟩, hpre, -⟩ := foldlM_append_ok hrun
  have hrefines := MapBook.run_refines P size n (Ladder.freshKeys_of_append hfresh)
  exact ⟨b, ch, hpre, (hrefines.of_ok hpre).1⟩

theorem creates_iff
    {rs : List MEClientRequest} (hfresh : FreshKeys rs)
    {s : MapBook P × Channel}
    (hrun : OrderBook.run MapLevels P size n rs = .ok s) {m : OrderId}
    {r : MEClientRequest} :
    Creates P size n rs m r ↔ ∃ pre s, Ladder.EntersUnder n rs m pre r s := by
  constructor
  · rintro ⟨pre, post, b, ch, s, rfl, hpre, hs, hid⟩
    have hprefix := Ladder.freshKeys_of_append hfresh
    obtain ⟨hrep, -⟩ := (MapBook.run_refines P size n hprefix).of_ok hpre
    exact ⟨pre, s, ⟨post, rfl⟩,
      (hrep.enters_iff (Ladder.run_wf n hprefix)).mp hs, hrep.next.symm.trans hid⟩
  · rintro ⟨pre, s, hunder⟩
    obtain ⟨post, rfl⟩ := hunder.split
    have hwf := Ladder.run_wf n (Ladder.freshKeys_of_append hfresh)
    obtain ⟨b, ch, hpre, hrep⟩ := run_prefix hfresh hrun
    exact ⟨pre, post, b, ch, s, rfl, hpre,
      (hrep.enters_iff hwf).mpr hunder.enters, hrep.next.trans hunder.id⟩

theorem echoesTotal_iff
    {rs : List MEClientRequest} (hfresh : FreshKeys rs) {b : MapBook P}
    {ch : Channel}
    (hrun : OrderBook.run MapLevels P size n rs = .ok (b, ch)) :
    EchoesTotal P size n rs ch ↔
      ∀ e ∈ (Ladder.run n rs).events, ∀ p ∈ e.echoes, Ladder.Echoes n rs p := by
  obtain ⟨-, rfl⟩ := (MapBook.run_refines P size n hfresh).of_ok hrun
  have hechoes : ∀ x : MEClientResponse,
      ((∃ r, Creates P size n rs x.marketOrderId r) ∧
        ∀ r, Creates P size n rs x.marketOrderId r → x.qty = r.qty) ↔
      Ladder.Echoes n rs (x.marketOrderId, x.qty) := by
    intro x
    simp only [creates_iff hfresh hrun, Ladder.Echoes]
    constructor
    · rintro ⟨⟨r, pre, s, h⟩, hall⟩
      exact ⟨⟨pre, r, s, h⟩, fun pre r s h => hall r ⟨pre, s, h⟩⟩
    · rintro ⟨⟨pre, r, s, h⟩, hall⟩
      exact ⟨⟨r, pre, s, h⟩, fun r ⟨pre, s, h⟩ => hall pre r s h⟩
  have hresponses :
      (Channel.sent Dialect.map (Ladder.run n rs)).responses =
        (Ladder.run n rs).events.flatMap (Event.responses Dialect.map) :=
    List.filterMap_flatMap
  unfold EchoesTotal
  simp only [hechoes, hresponses, List.mem_flatMap, ← Event.echoes_eq,
    List.mem_map, List.mem_filter, decide_eq_true_eq]
  constructor
  · rintro hall e he _ ⟨x, ⟨hx, hstatus⟩, rfl⟩
    exact hall x ⟨e, he, hx⟩ hstatus
  · rintro hall x ⟨e, he, hx⟩ hstatus
    exact hall e he _ ⟨x, ⟨hx, hstatus⟩, rfl⟩

end MapBook

/-- **Responses echo the total original quantity, except the remainder of a
partial fill.**  In a run whose market order ids cannot come round, all
responses under an id echo the quantity of the request that created the order
exactly if no order that was filled in part on entry is filled or canceled
while it rests. -/
theorem responses_echo_total_iff
    (P : Type) [ObjectPool P] (size : Nat) (n : OrderId)
    {rs : List MEClientRequest} (hfresh : FreshKeys rs)
    (hlen : rs.length + 1 < wordSize) {b : MapBook P} {ch : Channel}
    (hrun : OrderBook.run MapLevels P size n rs = .ok (b, ch)) :
    MapBook.EchoesTotal P size n rs ch ↔
      ¬ MapBook.ReportsRemainder P size n rs := by
  rw [MapBook.echoesTotal_iff hfresh hrun, Ladder.echoes_iff hfresh hlen]
  constructor
  · rintro hall ⟨pre, mid, post, r, r', b₁, b₂, ch₁, ch₂, o, rfl, hpre, hmid,
      hpart, hreports, hid⟩
    have hfresh₂ := Ladder.freshKeys_of_append hfresh
    have hfresh₁ := Ladder.freshKeys_of_append hfresh₂
    obtain ⟨hrep₁, -⟩ := (MapBook.run_refines P size n hfresh₁).of_ok hpre
    obtain ⟨hrep₂, -⟩ := (MapBook.run_refines P size n hfresh₂).of_ok hmid
    refine hall pre r mid r' post rfl
      ((hrep₁.restsInPart_iff (Ladder.run_wf n hfresh₁)).mp hpart) o
      ((hrep₂.reports_iff (Ladder.run_wf n hfresh₂)).mp hreports) ?_
    rw [hid, hrep₁.next]
  · rintro hnot pre r mid r' post rfl hpart o hreports hid
    have hfresh₂ := Ladder.freshKeys_of_append hfresh
    have hfresh₁ := Ladder.freshKeys_of_append hfresh₂
    obtain ⟨b₂, ch₂, hmid, hrep₂⟩ := MapBook.run_prefix hfresh hrun
    obtain ⟨b₁, ch₁, hpre, hrep₁⟩ := MapBook.run_prefix hfresh₂ hmid
    refine hnot ⟨pre, mid, post, r, r', b₁, b₂, ch₁, ch₂, o, rfl, hpre, hmid,
      (hrep₁.restsInPart_iff (Ladder.run_wf n hfresh₁)).mpr hpart,
      (hrep₂.reports_iff (Ladder.run_wf n hfresh₂)).mpr hreports, ?_⟩
    rw [hid, hrep₁.next]

section PartlyFilled

/-- A bid for 7 takes an ask of 5 and rests with 2, which an ask of 2 takes. -/
def partlyFilledBid : List MEClientRequest :=
  [.make .new 1 0 1 .goodTillCancel .sell 100 5,
    .make .new 2 0 1 .goodTillCancel .buy 100 7,
    .make .new 3 0 1 .goodTillCancel .sell 100 2]

theorem responses_echo_total_iff_example :
    ∃ b ch, OrderBook.run MapLevels ScanPool 4 1 partlyFilledBid =
        .ok (b, ch) ∧
      (MapBook.EchoesTotal ScanPool 4 1 partlyFilledBid ch ↔
        ¬ MapBook.ReportsRemainder ScanPool 4 1 partlyFilledBid) := by
  obtain ⟨s, hs⟩ : ∃ s,
      OrderBook.run MapLevels ScanPool 4 1 partlyFilledBid = .ok s := ⟨_, rfl⟩
  exact ⟨s.1, s.2, hs,
    responses_echo_total_iff ScanPool 4 1 (by decide) (by decide) hs⟩

/-- The bid is accepted with 7 shares, and its last 2 are reported as all that
it was. -/
theorem responses_echo_remainder :
    FreshKeys partlyFilledBid ∧
    ∃ b ch, OrderBook.run MapLevels ScanPool 4 1 partlyFilledBid =
        .ok (b, ch) ∧
      (∃ x ∈ ch.responses, ∃ y ∈ ch.responses,
        x.marketOrderId = y.marketOrderId ∧ x.status = .accepted ∧
          y.status = .executed ∧ x.qty = 7 ∧ y.qty = 2) ∧
      ¬ MapBook.EchoesTotal ScanPool 4 1 partlyFilledBid ch := by
  obtain ⟨s, hs, x, hx, y, hy, hid, hxs, hys, hxq, hyq⟩ : ∃ s,
      OrderBook.run MapLevels ScanPool 4 1 partlyFilledBid = .ok s ∧
      ∃ x ∈ s.2.responses, ∃ y ∈ s.2.responses,
        x.marketOrderId = y.marketOrderId ∧ x.status = .accepted ∧
          y.status = .executed ∧ x.qty = 7 ∧ y.qty = 2 :=
    ⟨_, rfl, by decide⟩
  refine ⟨by decide, s.1, s.2, hs,
    ⟨x, hx, y, hy, hid, hxs, hys, hxq, hyq⟩, fun hall => ?_⟩
  obtain ⟨⟨r, hr⟩, hx'⟩ := hall x hx (by simp [hxs])
  have heq : y.qty = r.qty := (hall y hy (by simp [hys])).2 r (hid ▸ hr)
  rw [← hx' r hr, hxq, hyq] at heq
  exact absurd heq (by decide)

end PartlyFilled

end NanoExchange
