import NanoExchange.Engine.LadderInvariant
import NanoExchange.Engine.MatchRefinement

/-!
# A book refines its ladder

`Rep b A` says that the book `b` in memory represents the ladder `A`: the
addresses are forgotten, and the ladder keeps the orders of each side in
priority order.

Each piece from which the requests are built is matched here with its
counterpart on the ladder: looking an order up, taking one out, writing down
what is left of one, and entering an incoming order.  Nothing can go wrong but
the pool running out of objects.
-/

namespace NanoExchange

open Lib

variable {Lv P : Type} [LevelTable Lv] [LawfulLevels Lv] [ObjectPool P]

/-- The located orders `L` are those of the ladder `A`. -/
def Located.Shows (L : Located) (A : Ladder) : Prop :=
  ∀ s, A.side s = (L s).map Prod.snd

/-- The book `b` in memory represents the ladder `A`. -/
def Rep (b : OrderBook Lv P) (A : Ladder) : Prop :=
  ∃ L, LRep b L ∧ L.Shows A ∧ A.nextMarketOrderId = b.nextMarketOrderId

namespace Ladder

/-- If keys are not repeated, an order is found under its own key. -/
theorem find?_of_mem
    {A : Ladder} {o : OrderInfo} (ho : o ∈ A.orders)
    (huniq : ∀ o' ∈ A.orders, o'.key = o.key → o' = o) :
    A.find? o.key = some o := by
  cases hf : A.find? o.key with
  | none => exact absurd rfl (find?_eq_none.mp hf o ho)
  | some o' =>
      obtain ⟨hmem, hkey⟩ := mem_of_find? hf
      rw [huniq o' hmem hkey]

theorem setRemaining_erase
    (A : Ladder) (k : ClientId × OrderId) (q : Quantity) :
    (A.setRemaining k q).erase k = A.erase k := by
  simp only [erase, setRemaining]
  congr 1
  funext s
  induction A.side s with
  | nil => rfl
  | cons o l ih =>
      by_cases ho : o.key = k <;> simp [ho] at ih ⊢ <;> exact ih

end Ladder

namespace Located

variable {L : Located} {A : Ladder}

theorem Shows.mem
    (h : L.Shows A) {s : Side} {e : Ptr × OrderInfo} (he : e ∈ L s) :
    e.2 ∈ A.side s := by
  rw [h s]
  exact List.mem_map_of_mem he

theorem Shows.exists_mem
    (h : L.Shows A) {s : Side} {o : OrderInfo} (ho : o ∈ A.side s) :
    ∃ p, (p, o) ∈ L s := by
  rw [h s] at ho
  obtain ⟨e, he, rfl⟩ := List.mem_map.mp ho
  exact ⟨e.1, he⟩

theorem Shows.update
    (h : L.Shows A) (s : Side) {l : List (Ptr × OrderInfo)}
    {l' : List OrderInfo} (hl : l.map Prod.snd = l') :
    Located.Shows (Function.update L s l) (A.setSide s l') := by
  intro s'
  by_cases hs : s' = s
  · subst hs
    rw [Function.update_self, Ladder.setSide_side_self, hl]
  · rw [Function.update_of_ne hs, Ladder.setSide_side_of_ne _ hs, h s']

theorem Shows.put
    (h : L.Shows A) (p : Ptr) (o : OrderInfo) :
    (L.put p o).Shows (A.insert o) := by
  refine h.update o.side ?_
  rw [h o.side]
  exact map_place Prod.snd (fun _ => rfl) (p, o) (L o.side)

end Located

namespace LRep

variable {b : OrderBook Lv P} {L : Located}

/-- The client index tells orders apart: a key belongs to one address. -/
theorem key_unique
    (h : LRep b L) {s s' : Side} {e e' : Ptr × OrderInfo}
    (he : e ∈ L s) (he' : e' ∈ L s') (hkey : e.2.key = e'.2.key) :
    e = e' := by
  have h1 := (h.index _ _ e.1).mpr ⟨s, e, he, rfl, rfl⟩
  have h2 := (h.index _ _ e'.1).mpr ⟨s', e', he', rfl, hkey.symm⟩
  rw [h1] at h2
  exact (h.unique he he' (Option.some.inj h2)).1

/-- The order at an address is the order of its key. -/
theorem ptr_eq_iff
    (h : LRep b L) {s s' : Side} {e e' : Ptr × OrderInfo}
    (he : e ∈ L s) (he' : e' ∈ L s') :
    e.1 = e'.1 ↔ e.2.key = e'.2.key := by
  constructor
  · intro hp
    rw [(h.unique he he' hp).1]
  · intro hkey
    rw [h.key_unique he he' hkey]

theorem shows_drop
    {A : Ladder} (h : LRep b L) (hA : L.Shows A)
    {s : Side} {e : Ptr × OrderInfo} (he : e ∈ L s) :
    (L.drop e.1).Shows (A.erase e.2.key) := by
  intro s'
  simp only [Ladder.erase, Located.drop, hA s', List.filter_map]
  congr 1
  refine List.filter_congr fun e' he' => ?_
  simp [h.ptr_eq_iff he' he]

theorem shows_rewrite
    {A : Ladder} (h : LRep b L) (hA : L.Shows A)
    {s : Side} {e : Ptr × OrderInfo} (he : e ∈ L s) (q : Quantity) :
    (L.rewrite e.1 (e.2.withRemaining q)).Shows
      (A.setRemaining e.2.key q) := by
  intro s'
  simp only [Ladder.setRemaining, Located.rewrite, hA s', List.map_map]
  refine List.map_congr_left fun e' he' => ?_
  by_cases hp : e'.1 = e.1
  · obtain ⟨rfl, -⟩ := h.unique he' he hp
    simp
  · have hkey : e'.2.key ≠ e.2.key := fun hk => hp ((h.ptr_eq_iff he' he).mpr hk)
    simp [hp, hkey]

end LRep

namespace Rep

variable {b : OrderBook Lv P} {A : Ladder}

theorem bump (h : Rep b A) :
    Rep b.bumpMarketOrderId A.bump := by
  obtain ⟨L, hL, hA, hnext⟩ := h
  refine ⟨L, ?_, hA, ?_⟩
  · exact ⟨hL.levels, hL.sorted, hL.placed, hL.nodup, hL.info, hL.linked,
      hL.live, hL.index, hL.noEmpty⟩
  · simp [Ladder.bump, OrderBook.bumpMarketOrderId, hnext]

/-- Looking up an order that the client does not have. -/
theorem find_none
    (h : Rep b A) {c : ClientId} {i : OrderId}
    (hf : b.orders.find c i = none) :
    A.find? (c, i) = none := by
  obtain ⟨L, hL, hA, -⟩ := h
  refine Ladder.find?_eq_none.mpr fun o ho hkey => ?_
  obtain ⟨s, hs⟩ := Ladder.mem_orders.mp ho
  obtain ⟨p, hp⟩ := hA.exists_mem hs
  have hsome := (hL.index c i p).mpr ⟨s, (p, o), hp, rfl, hkey⟩
  rw [hf] at hsome
  cases hsome

/-- Looking up an order that the client has. -/
theorem find_some
    (h : Rep b A) {c : ClientId} {i : OrderId} {p : Ptr}
    (hf : b.orders.find c i = some p) :
    ∃ mo, b.heap p = some mo ∧ A.find? (c, i) = some mo.info := by
  obtain ⟨L, hL, hA, -⟩ := h
  obtain ⟨s, e, he, rfl, hkey⟩ := (hL.index c i p).mp hf
  obtain ⟨mo, hmo, hinfo⟩ := Heap.exists_of_info (hL.info s e he)
  refine ⟨mo, hmo, ?_⟩
  rw [hinfo, ← hkey]
  refine Ladder.find?_of_mem (Ladder.mem_orders.mpr ⟨s, hA.mem he⟩) ?_
  intro o' ho' hkey'
  obtain ⟨s', hs'⟩ := Ladder.mem_orders.mp ho'
  obtain ⟨p', hp'⟩ := hA.exists_mem hs'
  rw [← hL.key_unique hp' he hkey']

/-- Taking the order of a client out. -/
theorem remove
    (h : Rep b A) {c : ClientId} {i : OrderId} {p : Ptr}
    (hf : b.orders.find c i = some p) :
    ∃ b', b.remove p = .ok b' ∧ Rep b' (A.erase (c, i)) := by
  obtain ⟨L, hL, hA, hnext⟩ := h
  obtain ⟨s, e, he, rfl, hkey⟩ := (hL.index c i p).mp hf
  obtain ⟨b', hb', hrep, hnext'⟩ := hL.remove (o := e.2) he
  refine ⟨b', hb', L.drop e.1, hrep, hkey ▸ hL.shows_drop hA he, ?_⟩
  rw [hnext']
  exact hnext

/-- Writing down what is left of a client's order. -/
theorem write
    (h : Rep b A) {c : ClientId} {i : OrderId} {p : Ptr} {mo : MEOrder}
    (hf : b.orders.find c i = some p) (hmo : b.heap p = some mo)
    (q : Quantity) :
    Rep { b with
        heap := b.heap.write p { mo with info := mo.info.withRemaining q } }
      (A.setRemaining (c, i) q) := by
  obtain ⟨L, hL, hA, hnext⟩ := h
  obtain ⟨s, e, he, rfl, hkey⟩ := (hL.index c i p).mp hf
  obtain ⟨mo', hmo', hinfo⟩ := Heap.exists_of_info (hL.info s e he)
  obtain rfl : mo' = mo := Option.some.inj (hmo'.symm.trans hmo)
  rw [hinfo, ← hkey]
  exact ⟨_, hL.write (o := e.2) he hmo rfl rfl rfl, hL.shows_rewrite hA he q,
    hnext⟩

/-- The end of `cancelOrder`: what is left of the order is written down, and
an order of which nothing is left is taken out. -/
theorem withdraw
    (h : Rep b A) {c : ClientId} {i : OrderId} {p : Ptr} {mo : MEOrder}
    (hf : b.orders.find c i = some p) (hmo : b.heap p = some mo)
    (hkey : mo.info.key = (c, i)) (qty : Quantity) :
    let left := mo.info.remainingQuantity - qty
    let b₁ := { b with
      heap := b.heap.write p { mo with info := mo.info.withRemaining left } }
    ∃ b', (if left = 0 then b₁.remove p else .ok b₁) = .ok b' ∧
      Rep b' (A.withdraw mo.info qty) := by
  have hwrite := h.write hf hmo (mo.info.remainingQuantity - qty)
  by_cases hleft : mo.info.remainingQuantity - qty = 0
  · obtain ⟨b', hb', hrep⟩ := hwrite.remove hf
    refine ⟨b', by rw [if_pos hleft, hb'], ?_⟩
    rwa [Ladder.withdraw, if_pos hleft, hkey,
      ← A.setRemaining_erase _ (mo.info.remainingQuantity - qty)]
  · refine ⟨_, if_neg hleft, ?_⟩
    rwa [Ladder.withdraw, if_neg hleft, hkey]

/-- Entering what is left of an incoming order. -/
theorem insert
    (h : Rep b A) {a : OrderArgs} (hvalid : LawfulLevels.Valid Lv a.price)
    (hfresh : ∀ o ∈ A.orders, o.key ≠ a.toInfo.key) :
    b.insert a = .error .poolExhausted ∨
      ∃ b', b.insert a = .ok b' ∧ Rep b' (A.insert a.toInfo) := by
  obtain ⟨L, hL, hA, hnext⟩ := h
  have hfreshL : ∀ s, ∀ e ∈ L s, e.2.key ≠ a.toInfo.key := fun s e he =>
    hfresh e.2 (Ladder.mem_orders.mpr ⟨s, hA.mem he⟩)
  rcases hL.insert hvalid hfreshL with hfull | ⟨b', p, hb', hrep, hnext'⟩
  · exact .inl hfull
  · refine .inr ⟨b', hb', L.put p a.toInfo, hrep, hA.put p _, ?_⟩
    rw [hnext']
    exact hnext

/-- **`match` is a sweep of the opposite side.** -/
theorem matchOrder
    {d : Dialect} (hd : TradesIn Lv d) (h : Rep b A) (ch : Channel)
    (a : OrderArgs) (hqty : ∀ o ∈ A.orders, 0 < o.remainingQuantity) :
    let r := sweep (a.side.crosses a.price) a ch.matchIds a.initialQuantity
      (A.side a.side.opposite)
    ∃ b', b.matchOrder ch a =
        .ok (b', ch.report d r.matchIds r.fills, r.remaining) ∧
      Rep b' (A.setSide a.side.opposite r.resting) := by
  obtain ⟨L, hL, hA, hnext⟩ := h
  have hqtyL : ∀ e ∈ L a.side.opposite, 0 < e.2.remainingQuantity :=
    fun e he => hqty e.2 (Ladder.mem_orders.mpr ⟨_, hA.mem he⟩)
  obtain ⟨b', l', hmatch, hrep, hmap, hnext'⟩ :=
    hL.matchAgainst_ok hd ch hqtyL (Nat.lt_succ_self a.initialQuantity)
  rw [← hA a.side.opposite] at hmatch hmap
  refine ⟨b', hmatch, _, hrep, hA.update _ hmap, ?_⟩
  rw [hnext']
  exact hnext

end Rep

/-- An operation of the book ends as the ladder says, with the reports of the
dialect `d`; or it finds the pool empty. -/
def Performs (d : Dialect) (ch : Channel)
    (x : Except Fault (OrderBook Lv P × Channel)) (res : StepResult) : Prop :=
  x = .error .poolExhausted ∨
    ∃ b', x = .ok (b', ch.report d res.matchIds res.events) ∧
      Rep b' res.ladder

theorem Performs.of_ok
    {d : Dialect} {ch : Channel} {x : Except Fault (OrderBook Lv P × Channel)}
    {res : StepResult} {b : OrderBook Lv P} {ch' : Channel}
    (h : Performs d ch x res) (hx : x = .ok (b, ch')) :
    Rep b res.ladder ∧ ch' = ch.report d res.matchIds res.events := by
  rcases h with hfull | ⟨b', hb', hrep⟩
  · cases hx.symm.trans hfull
  · obtain ⟨rfl, rfl⟩ := Prod.mk.inj (Except.ok.inj (hb'.symm.trans hx))
    exact ⟨hrep, rfl⟩

/-- An event reported before the operation is one more event of it. -/
theorem Performs.cons
    {d : Dialect} {ch : Channel} {e : Event}
    {x : Except Fault (OrderBook Lv P × Channel)} {res : StepResult}
    (h : Performs d (ch.report d ch.matchIds [e]) x res) :
    Performs d ch x { res with events := e :: res.events } := by
  rcases h with h | ⟨b', hx, hrep⟩
  · exact .inl h
  · refine .inr ⟨b', ?_, hrep⟩
    rw [hx, Channel.report_cons]

namespace Rep

variable {b : OrderBook Lv P} {A : Ladder} {d : Dialect}

/-- **Entering an incoming order**, with what follows the sweep given as a
program: it has to insert the remainder of a GoodTillCancel order, and to
report that of a FillAndKill order. -/
theorem enter
    (hd : TradesIn Lv d) (h : Rep b A) (hA : A.WF) (ch : Channel)
    (a : OrderArgs) (replacing : Bool)
    (hvalid : LawfulLevels.Valid Lv a.price)
    (hfresh : ∀ o ∈ A.orders, o.key ≠ (a.clientId, a.clientOrderId))
    {k : OrderBook Lv P × Channel × Quantity →
      Except Fault (OrderBook Lv P × Channel)}
    (hfilled : ∀ b' ch', k (b', ch', 0) = .ok (b', ch'))
    (hrest : ∀ b' ch' q, q ≠ 0 → a.orderType = .goodTillCancel →
      k (b', ch', q) =
        b'.insert { a with initialQuantity := q } >>= fun b'' =>
          .ok (b'', ch'.report d ch'.matchIds [.rested replacing a q]))
    (hkill : ∀ b' ch' q, q ≠ 0 → a.orderType = .fillAndKill →
      k (b', ch', q) =
        .ok (b', ch'.report d ch'.matchIds [.killed replacing a q])) :
    Performs d ch (b.matchOrder ch a >>= k)
      (A.enter ch.matchIds replacing a) := by
  obtain ⟨b₁, hmatch, hrep⟩ :=
    h.matchOrder hd ch a fun o ho => (hA.quantity o ho).1
  rw [hmatch, ok_bind]
  rcases A.enter_cases ch.matchIds replacing a with
    ⟨hrem, heq⟩ | ⟨hrem, htype, heq⟩ | ⟨hrem, htype, heq⟩
  · rw [heq]
    refine .inr ⟨b₁, ?_, hrep⟩
    rw [hrem, hfilled]
  · rw [heq, hrest _ _ _ hrem htype]
    have hfresh₁ : ∀ o ∈ (A.swept ch.matchIds a).orders,
        o.key ≠ (a.clientId, a.clientOrderId) := by
      intro o ho
      obtain ⟨o', ho', x, -, -, rfl⟩ :=
        (Ladder.trims_swept hA ch.matchIds a).orders.shrinks o ho
      exact hfresh o' ho'
    rcases hrep.insert (a := { a with
        initialQuantity := (A.sweepBy ch.matchIds a).remaining })
        hvalid hfresh₁ with hfull | ⟨b₂, hb₂, hrep₂⟩
    · exact .inl (by rw [hfull]; rfl)
    · refine .inr ⟨b₂, ?_, hrep₂⟩
      rw [hb₂, ok_bind, Channel.report_append]
      rfl
  · rw [heq, hkill _ _ _ hrem htype]
    refine .inr ⟨b₁, ?_, hrep⟩
    rw [Channel.report_append]
    rfl

/-- **`addOrder` performs a NEW request.** -/
theorem addOrder
    (hd : TradesIn Lv d) (h : Rep b A) (hA : A.WF) (ch : Channel)
    {r : MEClientRequest} (haction : r.action = .new)
    (hvalid : LawfulLevels.Valid Lv r.price) (hfresh : A.Fresh r) :
    Performs d ch
      (b.addOrder ch r.tickerId r.clientId r.clientOrderId r.type r.price
        r.qty r.side r.orderToken)
      (A.step ch.matchIds r) := by
  have hkey : (r.clientId, r.clientOrderId) ∈ r.newKey := by
    simp [MEClientRequest.newKey, haction]
  have hnext : b.nextMarketOrderId = A.nextMarketOrderId := by
    obtain ⟨L, -, -, hnext⟩ := h
    exact hnext.symm
  have hstep : A.step ch.matchIds r =
      { A.bump.enter ch.matchIds false (A.newArgs r) with
        events := .accepted (A.newArgs r) ::
          (A.bump.enter ch.matchIds false (A.newArgs r)).events } := by
    simp only [Ladder.step, haction]
  rw [hstep]
  unfold OrderBook.addOrder
  rw [hnext]
  refine (h.bump.enter hd ((Ladder.trims_bump hA).wf hA)
    (ch.report d ch.matchIds [.accepted (A.newArgs r)]) (A.newArgs r) false
    hvalid (hfresh _ hkey) (fun _ _ => rfl) ?_ ?_).cons
  · intro b' ch' q hq htype
    have htype : r.type = .goodTillCancel := htype
    simp [Nat.pos_of_ne_zero hq, htype, Channel.sendMarketUpdate,
      Channel.report, Event.outputs, Ladder.newArgs]
  · intro b' ch' q hq htype
    have htype : r.type = .fillAndKill := htype
    simp [Nat.pos_of_ne_zero hq, htype, Channel.sendClientResponse,
      Channel.report, Event.outputs, Ladder.newArgs]

end Rep

end NanoExchange
