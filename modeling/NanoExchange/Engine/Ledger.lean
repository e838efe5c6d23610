import NanoExchange.Engine.Equivalence
import NanoExchange.Lib.Lists

/-!
# Conservation of shares

The books of one market order id `m`.  Read in the order in which they were
sent, the messages of a run first announce `m` with a quantity, then book
executions and cancels against it, and perhaps end with its replacement.
`Ledger m out acc` is the relation that checks this, message by message, and
keeps the balance in the `Account` `acc`.

What the ledger says about the messages alone is `Ledger.sound`.  That every
run of a ladder keeps a ledger, with the shares that still rest as the balance,
is `Ladder.run_ledger`.
-/

namespace NanoExchange

open Lib

/-- What has become of a market order id. -/
inductive Account where
  | unannounced
  /-- Announced with `total` shares, of which `left` have not been booked. -/
  | live (total left : Quantity)
  /-- Taken out for a replacement. -/
  | replaced (total left : Quantity)

namespace Output

/-- The quantity with which an ACCEPTED or MODIFIED response announces `m`. -/
def announced (m : OrderId) : Output → Option Quantity
  | .response r =>
      if r.marketOrderId = m ∧ (r.status = .accepted ∨ r.status = .modified)
      then some r.qty else none
  | .update _ => none

/-- The quantity that an EXECUTED or CANCELED response books on `m`. -/
def booked (m : OrderId) : Output → Option Quantity
  | .response r =>
      if r.marketOrderId = m ∧ r.status = .executed then some r.executedQty
      else if r.marketOrderId = m ∧ r.status = .canceled then some r.leavesQty
      else none
  | .update _ => none

/-- The MODIFY update that takes `m` out for a replacement. -/
def Replaces (m : OrderId) : Output → Prop
  | .response _ => False
  | .update u => u.type = .modify ∧ u.marketOrderId = m

/-- The message says nothing about `m` that a ledger would note. -/
structure Ignores (m : OrderId) (o : Output) : Prop where
  announced : o.announced m = none
  booked : o.booked m = none
  replaces : ¬ o.Replaces m

theorem ignores_response
    {m : OrderId} {r : MEClientResponse}
    (h : r.marketOrderId ≠ m ∨ r.status = .cancelRejected) :
    (response r).Ignores m := by
  constructor <;> rcases h with h | h <;>
    simp [announced, booked, Replaces, h]

theorem ignores_update
    {m : OrderId} {u : MEMarketUpdate}
    (h : u.marketOrderId ≠ m ∨ u.type ≠ .modify) :
    (update u).Ignores m := by
  refine ⟨rfl, rfl, ?_⟩
  rintro ⟨htype, hid⟩
  rcases h with h | h
  · exact h hid
  · exact h htype

end Output

/-- The announcements of `m` among some messages. -/
def announcements (m : OrderId) (out : List Output) : List Quantity :=
  out.filterMap (Output.announced m)

/-- The quantity that some messages book on `m`, executed and canceled. -/
def bookedQty (m : OrderId) (out : List Output) : Quantity :=
  (out.filterMap (Output.booked m)).sum

/-- Some message takes `m` out for a replacement. -/
def Replaced (m : OrderId) (out : List Output) : Prop :=
  ∃ o ∈ out, o.Replaces m

/-- The messages `out`, in the order in which they were sent, keep the books
of `m`, and leave its account as `acc`. -/
inductive Ledger (m : OrderId) : List Output → Account → Prop
  | nil : Ledger m [] .unannounced
  | ignored {out : List Output} {acc : Account} {o : Output}
      (h : Ledger m out acc) (ho : o.Ignores m) :
      Ledger m (out ++ [o]) acc
  | announced {out : List Output} {r : MEClientResponse}
      (h : Ledger m out .unannounced) (hid : r.marketOrderId = m)
      (hstatus : r.status = .accepted ∨ r.status = .modified) :
      Ledger m (out ++ [.response r]) (.live r.qty r.qty)
  | executed {out : List Output} {Q left : Quantity} {r : MEClientResponse}
      (h : Ledger m out (.live Q left)) (hid : r.marketOrderId = m)
      (hstatus : r.status = .executed) (hpos : 0 < r.executedQty)
      (hleft : r.executedQty + r.leavesQty = left) :
      Ledger m (out ++ [.response r]) (.live Q r.leavesQty)
  | canceled {out : List Output} {Q left left' : Quantity}
      {r : MEClientResponse}
      (h : Ledger m out (.live Q left)) (hid : r.marketOrderId = m)
      (hstatus : r.status = .canceled) (hpos : 0 < r.leavesQty)
      (hleft : r.leavesQty + left' = left) :
      Ledger m (out ++ [.response r]) (.live Q left')
  | replaced {out : List Output} {Q left : Quantity} {u : MEMarketUpdate}
      (h : Ledger m out (.live Q left)) (hid : u.marketOrderId = m)
      (htype : u.type = .modify) :
      Ledger m (out ++ [.update u]) (.replaced Q left)

section Messages

variable {m : OrderId} {out : List Output} {o : Output}

theorem announcements_concat :
    announcements m (out ++ [o]) =
      announcements m out ++ (o.announced m).toList := by
  cases h : o.announced m <;> simp [announcements, h]

theorem bookedQty_concat :
    bookedQty m (out ++ [o]) = bookedQty m out + (o.booked m).getD 0 := by
  cases h : o.booked m <;> simp [bookedQty, h]

theorem replaced_concat :
    Replaced m (out ++ [o]) ↔ Replaced m out ∨ o.Replaces m := by
  simp [Replaced, or_and_right, exists_or]

/-- A booking on `m` finds `m` announced, not replaced, and with shares to
book; an execution leaves what is then left. -/
def Regular (m : OrderId) (pre : List Output) (o : Output) : Prop :=
  o.booked m ≠ none →
    ∃ Q, announcements m pre = [Q] ∧ ¬ Replaced m pre ∧ bookedQty m pre < Q ∧
      ∀ r, o = .response r → r.status = .executed →
        bookedQty m (pre ++ [o]) + r.leavesQty = Q

/-- The balance of an account. -/
def Balanced (m : OrderId) (out : List Output) : Account → Prop
  | .unannounced => announcements m out = [] ∧ bookedQty m out = 0 ∧
      ¬ Replaced m out
  | .live Q left => announcements m out = [Q] ∧ bookedQty m out + left = Q ∧
      ¬ Replaced m out
  | .replaced Q _ => announcements m out = [Q] ∧ Replaced m out

/-- A message that a ledger ignores changes no balance. -/
theorem Balanced.ignored
    {acc : Account} (h : Balanced m out acc) (ho : o.Ignores m) :
    Balanced m (out ++ [o]) acc := by
  cases acc <;>
    simpa [Balanced, announcements_concat, bookedQty_concat, replaced_concat,
      ho.announced, ho.booked, ho.replaces] using h

/-- **A ledger balances, and each of its bookings is regular.** -/
theorem Ledger.sound {acc : Account} (h : Ledger m out acc) :
    Balanced m out acc ∧ Along (Regular m) out := by
  induction h with
  | nil =>
      refine ⟨⟨rfl, rfl, ?_⟩, along_nil⟩
      simp [Replaced]
  | ignored h ho ih =>
      refine ⟨ih.1.ignored ho, along_concat.mpr ⟨ih.2, ?_⟩⟩
      exact fun hbooked => absurd ho.booked hbooked
  | announced h hid hstatus ih =>
      obtain ⟨⟨hann, hqty, hrep⟩, halong⟩ := ih
      have hstatus' := hstatus
      refine ⟨?_, along_concat.mpr ⟨halong, ?_⟩⟩
      · rcases hstatus with hstatus | hstatus <;>
          simp [Balanced, announcements_concat, bookedQty_concat,
            replaced_concat, Output.announced, Output.booked, Output.Replaces,
            hid, hstatus, hann, hqty, hrep]
      · intro hbooked
        rcases hstatus' with hstatus | hstatus <;>
          simp [Output.booked, hstatus] at hbooked
  | @executed out Q left r h hid hstatus hpos hleft ih =>
      obtain ⟨⟨hann, hqty, hrep⟩, halong⟩ := ih
      have hsum : bookedQty m (out ++ [.response r]) + r.leavesQty = Q := by
        simp only [bookedQty_concat, Output.booked, hid, hstatus, true_and,
          if_true, Option.getD_some]
        lia
      refine ⟨⟨?_, hsum, ?_⟩, along_concat.mpr ⟨halong, fun _ => ?_⟩⟩
      · simp [announcements_concat, Output.announced, hstatus, hann]
      · simp [replaced_concat, Output.Replaces, hrep]
      · refine ⟨Q, hann, hrep, by lia, ?_⟩
        intro r' hr' _
        obtain rfl := Output.response.inj hr'
        exact hsum
  | @canceled out Q left left' r h hid hstatus hpos hleft ih =>
      obtain ⟨⟨hann, hqty, hrep⟩, halong⟩ := ih
      refine ⟨⟨?_, ?_, ?_⟩, along_concat.mpr ⟨halong, fun _ => ?_⟩⟩
      · simp [announcements_concat, Output.announced, hstatus, hann]
      · simp only [bookedQty_concat, Output.booked, hid, hstatus, true_and,
          if_true, Option.getD_some, reduceCtorEq, if_false]
        lia
      · simp [replaced_concat, Output.Replaces, hrep]
      · refine ⟨Q, hann, hrep, by lia, ?_⟩
        intro r' hr' hexec
        obtain rfl := Output.response.inj hr'
        rw [hstatus] at hexec
        cases hexec
  | @replaced out Q left u h hid htype ih =>
      obtain ⟨⟨hann, -, -⟩, halong⟩ := ih
      refine ⟨⟨?_, ?_⟩, along_concat.mpr ⟨halong, fun hbooked => ?_⟩⟩
      · simp [announcements_concat, Output.announced, hann]
      · exact replaced_concat.mpr (.inr ⟨htype, hid⟩)
      · exact absurd rfl hbooked

end Messages

/-- The messages of some events, as the map book reports them. -/
def messages (es : List Event) : List Output :=
  es.flatMap (Event.outputs Dialect.map)

theorem messages_cons (e : Event) (es : List Event) :
    messages (e :: es) = e.outputs Dialect.map ++ messages es := by
  rfl

theorem messages_append (es es' : List Event) :
    messages (es ++ es') = messages es ++ messages es' :=
  List.flatMap_append

theorem messages_singleton (e : Event) :
    messages [e] = e.outputs Dialect.map :=
  List.flatMap_singleton _ _

/-- The shares that the orders of a list with id `m` have left. -/
def held (m : OrderId) (l : List OrderInfo) : Quantity :=
  ((l.filter fun o => o.marketOrderId = m).map
    OrderInfo.remainingQuantity).sum

section Held

variable {m : OrderId} {l : List OrderInfo} {o : OrderInfo}

theorem held_cons_self (h : o.marketOrderId = m) :
    held m (o :: l) = o.remainingQuantity + held m l := by
  simp [held, h]

theorem held_cons_of_ne (h : o.marketOrderId ≠ m) :
    held m (o :: l) = held m l := by
  simp [held, h]

theorem held_append (l l' : List OrderInfo) :
    held m (l ++ l') = held m l + held m l' := by
  simp [held]

theorem held_perm {l l' : List OrderInfo} (h : l.Perm l') :
    held m l = held m l' :=
  ((h.filter _).map _).sum_eq

theorem held_eq_zero (h : ∀ o ∈ l, o.marketOrderId ≠ m) :
    held m l = 0 := by
  have hnil : (l.filter fun o => o.marketOrderId = m) = [] :=
    List.filter_eq_nil_iff.mpr fun o ho => by simpa using h o ho
  simp [held, hnil]

/-- If ids tell the orders apart, no other order holds shares of the first. -/
theorem held_tail_eq_zero
    (hnodup : ((o :: l).map OrderInfo.marketOrderId).Nodup)
    (h : o.marketOrderId = m) :
    held m l = 0 := by
  rw [List.map_cons, List.nodup_cons] at hnodup
  exact held_eq_zero fun x hx hxm =>
    hnodup.1 (List.mem_map.mpr ⟨x, hx, hxm.trans h.symm⟩)

/-- If ids tell the orders apart, the order with id `m` holds its shares. -/
theorem held_eq_of_mem
    (hnodup : (l.map OrderInfo.marketOrderId).Nodup) (ho : o ∈ l)
    (h : o.marketOrderId = m) :
    held m l = o.remainingQuantity := by
  induction l with
  | nil => cases ho
  | cons x l ih =>
      rcases List.mem_cons.mp ho with rfl | ho
      · rw [held_cons_self h, held_tail_eq_zero hnodup h, Nat.add_zero]
      · rw [List.map_cons, List.nodup_cons] at hnodup
        have hx : x.marketOrderId ≠ m := fun hxm =>
          hnodup.1 (List.mem_map.mpr ⟨o, ho, h.trans hxm.symm⟩)
        rw [held_cons_of_ne hx]
        exact ih hnodup.2 ho

/-- Taking out orders of other ids changes nothing. -/
theorem held_filter
    {p : OrderInfo → Bool} (h : ∀ o ∈ l, o.marketOrderId = m → p o) :
    held m (l.filter p) = held m l := by
  rw [held, held, List.filter_filter]
  congr 2
  refine List.filter_congr fun o ho => ?_
  by_cases hm : o.marketOrderId = m
  · simp [hm, h o ho hm]
  · simp [hm]

/-- Changing orders of other ids changes nothing. -/
theorem held_map
    {f : OrderInfo → OrderInfo}
    (hid : ∀ o, (f o).marketOrderId = o.marketOrderId)
    (h : ∀ o ∈ l, o.marketOrderId = m → f o = o) :
    held m (l.map f) = held m l := by
  induction l with
  | nil => rfl
  | cons x l ih =>
      have hrest := ih fun o ho => h o (List.mem_cons_of_mem _ ho)
      rw [List.map_cons]
      by_cases hx : x.marketOrderId = m
      · rw [h x List.mem_cons_self hx, held_cons_self hx, held_cons_self hx,
          hrest]
      · rw [held_cons_of_ne hx, held_cons_of_ne (by rwa [hid]), hrest]

end Held

namespace Ledger

variable {m : OrderId} {out : List Output} {acc : Account}

theorem ignore_all
    (h : Ledger m out acc) {l : List Output} (hl : ∀ o ∈ l, o.Ignores m) :
    Ledger m (out ++ l) acc := by
  induction l generalizing out with
  | nil => simpa using h
  | cons o l ih =>
      have hone := h.ignored (hl o List.mem_cons_self)
      have hrest := ih hone fun x hx => hl x (List.mem_cons_of_mem _ hx)
      rwa [List.append_assoc] at hrest

section Fill

variable {a : OrderArgs} {o : OrderInfo} {fill remaining : Quantity}
variable {n : OrderId} {Q left : Quantity}

/-- A fill between two other orders. -/
theorem fill_of_ne
    (h : Ledger m out acc) (ho : o.marketOrderId ≠ m)
    (ha : a.marketOrderId ≠ m) :
    Ledger m (out ++ messages [.filled a o fill remaining n]) acc := by
  refine h.ignore_all fun x hx => ?_
  simp only [messages_singleton, Event.outputs, List.mem_cons,
    List.not_mem_nil, or_false] at hx
  rcases hx with rfl | rfl | rfl
  · exact Output.ignores_response (.inl ho)
  · exact Output.ignores_response (.inl ha)
  · exact Output.ignores_update (.inl ho)

/-- A fill of the resting order `m`. -/
theorem fill_resting
    (h : Ledger m out (.live Q left)) (ho : o.marketOrderId = m)
    (ha : a.marketOrderId ≠ m) (hpos : 0 < fill)
    (hleft : fill + o.remainingQuantity = left) :
    Ledger m (out ++ messages [.filled a o fill remaining n])
      (.live Q o.remainingQuantity) := by
  have hexec := h.executed
    (r := restingResponse a.tickerId o fill o.price n) ho rfl hpos hleft
  have hrest := hexec.ignore_all
    (l := [.response (aggressiveResponse a fill o.price remaining n),
      .update (tradeUpdate a.tickerId o fill n)]) ?_
  · rwa [List.append_assoc] at hrest
  · intro x hx
    simp only [List.mem_cons, List.not_mem_nil, or_false] at hx
    rcases hx with rfl | rfl
    · exact Output.ignores_response (.inl ha)
    · exact Output.ignores_update (.inr (by simp [tradeUpdate]))

/-- A fill of the incoming order `m`. -/
theorem fill_incoming
    (h : Ledger m out (.live Q left)) (ho : o.marketOrderId ≠ m)
    (ha : a.marketOrderId = m) (hpos : 0 < fill)
    (hleft : fill + remaining = left) :
    Ledger m (out ++ messages [.filled a o fill remaining n])
      (.live Q remaining) := by
  have hresting := h.ignored (o := .response
    (restingResponse a.tickerId o fill o.price n))
    (Output.ignores_response (.inl ho))
  have hexec := hresting.executed
    (r := aggressiveResponse a fill o.price remaining n) ha rfl hpos hleft
  have htrade := hexec.ignored (o := .update (tradeUpdate a.tickerId o fill n))
    (Output.ignores_update (.inr (by simp [tradeUpdate])))
  rwa [List.append_assoc, List.append_assoc] at htrade

end Fill

section Sweep

variable {R : Price → Prop} [DecidablePred R] {a : OrderArgs}
variable {l : List OrderInfo}

/-- A sweep among other orders. -/
theorem sweep_of_not_mem
    (h : Ledger m out acc) (ha : a.marketOrderId ≠ m)
    (hl : ∀ o ∈ l, o.marketOrderId ≠ m) (n : OrderId) (q : Quantity) :
    Ledger m (out ++ messages (sweep R a n q l).fills) acc := by
  have hinv := sweep_invariant (R := R) (a := a)
    (fun es _ l => Ledger m (out ++ messages es) acc ∧
      ∀ o ∈ l, o.marketOrderId ≠ m) ?_ ?_ [] n (q := q) (l := l)
    ⟨by simpa [messages] using h, hl⟩
  · exact hinv.1
  · rintro es n q o l - - ⟨h, hl⟩
    rw [messages_append, ← List.append_assoc]
    exact ⟨h.fill_of_ne (hl o List.mem_cons_self) ha,
      fun x hx => hl x (List.mem_cons_of_mem _ hx)⟩
  · rintro es n q o l - - ⟨h, hl⟩
    rw [messages_append, ← List.append_assoc]
    have ho : (o.withRemaining (o.remainingQuantity - q)).marketOrderId ≠ m :=
      hl o List.mem_cons_self
    refine ⟨h.fill_of_ne ho ha, fun x hx => ?_⟩
    rcases List.mem_cons.mp hx with rfl | hx
    · exact ho
    · exact hl x (List.mem_cons_of_mem _ hx)

/-- A sweep that may meet the resting order `m`; `c` is what `m` holds
elsewhere. -/
theorem sweep_resting
    {Q c : Quantity} (h : Ledger m out (.live Q (c + held m l)))
    (ha : a.marketOrderId ≠ m)
    (hnodup : (l.map OrderInfo.marketOrderId).Nodup)
    (hpos : ∀ o ∈ l, 0 < o.remainingQuantity)
    (hc : ∀ o ∈ l, o.marketOrderId = m → c = 0) (n : OrderId)
    (q : Quantity) :
    Ledger m (out ++ messages (sweep R a n q l).fills)
      (.live Q (c + held m (sweep R a n q l).resting)) := by
  have hinv := sweep_invariant (R := R) (a := a)
    (fun es _ l => Ledger m (out ++ messages es) (.live Q (c + held m l)) ∧
      (l.map OrderInfo.marketOrderId).Nodup ∧
      (∀ o ∈ l, 0 < o.remainingQuantity) ∧
      ∀ o ∈ l, o.marketOrderId = m → c = 0) ?_ ?_ [] n (q := q)
    (l := l) ⟨by simpa [messages] using h, hnodup, hpos, hc⟩
  · exact hinv.1
  · rintro es n q o l - - ⟨h, hnodup, hpos, hc⟩
    rw [messages_append, ← List.append_assoc]
    have hrest : (l.map OrderInfo.marketOrderId).Nodup :=
      (List.nodup_cons.mp hnodup).2
    refine ⟨?_, hrest, fun x hx => hpos x (List.mem_cons_of_mem _ hx),
      fun x hx => hc x (List.mem_cons_of_mem _ hx)⟩
    by_cases ho : o.marketOrderId = m
    · obtain rfl := hc o List.mem_cons_self ho
      have hzero := held_tail_eq_zero hnodup ho
      rw [held_cons_self ho, hzero] at h
      rw [hzero]
      exact h.fill_resting (o := o.withRemaining 0) ho ha
        (hpos o List.mem_cons_self) (by simp)
    · rw [held_cons_of_ne ho] at h
      exact h.fill_of_ne (o := o.withRemaining 0) ho ha
  · rintro es n q o l hq hlt ⟨h, hnodup, hpos, hc⟩
    rw [messages_append, ← List.append_assoc]
    refine ⟨?_, hnodup, ?_, ?_⟩
    · by_cases ho : o.marketOrderId = m
      · obtain rfl := hc o List.mem_cons_self ho
        have hzero := held_tail_eq_zero hnodup ho
        rw [held_cons_self ho, hzero] at h
        rw [held_cons_self (by exact ho), hzero]
        rw [Nat.add_zero, Nat.zero_add]
        exact h.fill_resting (o := o.withRemaining (o.remainingQuantity - q))
          ho ha (Nat.pos_of_ne_zero hq) (by simp; lia)
      · rw [held_cons_of_ne ho] at h
        rw [held_cons_of_ne (by exact ho)]
        exact h.fill_of_ne (by exact ho) ha
    · intro x hx
      rcases List.mem_cons.mp hx with rfl | hx
      · exact Nat.sub_pos_of_lt hlt
      · exact hpos x (List.mem_cons_of_mem _ hx)
    · intro x hx hxm
      rcases List.mem_cons.mp hx with rfl | hx
      · exact hc o List.mem_cons_self hxm
      · exact hc x (List.mem_cons_of_mem _ hx) hxm

/-- The sweep of the incoming order `m`. -/
theorem sweep_incoming
    {Q q : Quantity} (h : Ledger m out (.live Q q))
    (ha : a.marketOrderId = m)
    (hpos : ∀ o ∈ l, 0 < o.remainingQuantity)
    (hl : ∀ o ∈ l, o.marketOrderId ≠ m) (n : OrderId) :
    Ledger m (out ++ messages (sweep R a n q l).fills)
      (.live Q (sweep R a n q l).remaining) := by
  have hinv := sweep_invariant (R := R) (a := a)
    (fun es q l => Ledger m (out ++ messages es) (.live Q q) ∧
      ∀ o ∈ l, 0 < o.remainingQuantity ∧ o.marketOrderId ≠ m) ?_ ?_ []
    n (q := q) (l := l)
    ⟨by simpa [messages] using h, fun o ho => ⟨hpos o ho, hl o ho⟩⟩
  · exact hinv.1
  · rintro es n q o l - hle ⟨h, hl⟩
    rw [messages_append, ← List.append_assoc]
    obtain ⟨hpos, hne⟩ := hl o List.mem_cons_self
    refine ⟨?_, fun x hx => hl x (List.mem_cons_of_mem _ hx)⟩
    exact h.fill_incoming (o := o.withRemaining 0) hne ha hpos (by lia)
  · rintro es n q o l hq hlt ⟨h, hl⟩
    rw [messages_append, ← List.append_assoc]
    have hne := (hl o List.mem_cons_self).2
    refine ⟨h.fill_incoming (o := o.withRemaining _) hne ha
      (Nat.pos_of_ne_zero hq) rfl, fun x hx => ?_⟩
    rcases List.mem_cons.mp hx with rfl | hx
    · exact ⟨Nat.sub_pos_of_lt hlt, hne⟩
    · exact hl x (List.mem_cons_of_mem _ hx)

end Sweep

end Ledger

namespace Ladder

variable {A : Ladder} {m : OrderId} {out : List Output} {acc : Account}

/-- The account of `m` agrees with the resting orders. -/
def Shows (A : Ladder) (m : OrderId) : Account → Prop
  | .unannounced => ∀ o ∈ A.orders, o.marketOrderId ≠ m
  | .live _ left => left = held m A.orders
  | .replaced _ _ => ∀ o ∈ A.orders, o.marketOrderId ≠ m

theorem held_orders (A : Ladder) (m : OrderId) (s : Side) :
    held m A.orders = held m (A.side s) + held m (A.side s.opposite) := by
  rw [orders, held_append]
  cases s with
  | buy => rfl
  | sell => exact Nat.add_comm _ _

theorem Ids.side_nodup (h : A.Ids) (s : Side) :
    ((A.side s).map OrderInfo.marketOrderId).Nodup := by
  refine h.nodup.sublist (List.Sublist.map _ ?_)
  cases s with
  | buy => exact List.sublist_append_left _ _
  | sell => exact List.sublist_append_right _ _

/-- The order with id `m` that rests, rests on one side. -/
theorem Ids.held_side_eq_zero
    (h : A.Ids) {s : Side} {o : OrderInfo} (ho : o ∈ A.side s.opposite)
    (hm : o.marketOrderId = m) :
    held m (A.side s) = 0 := by
  have hside := held_eq_of_mem (h.side_nodup s.opposite) ho hm
  have hall := held_eq_of_mem h.nodup (mem_orders_of_side ho) hm
  rw [A.held_orders m s, hside] at hall
  lia

theorem held_swept (A : Ladder) (m n : OrderId) (a : OrderArgs) :
    held m (A.swept n a).orders =
      held m (A.side a.side) + held m (A.sweepBy n a).resting := by
  rw [(A.swept n a).held_orders m a.side, swept_side_self,
    swept_side_opposite]

theorem held_insert_of_ne
    (A : Ladder) {o : OrderInfo} (h : o.marketOrderId ≠ m) :
    held m (A.insert o).orders = held m A.orders := by
  rw [held_perm (A.insert_orders_perm o), held_cons_of_ne h]

/-- What becomes of the remainder of an incoming order is no matter for the
books of another order. -/
theorem ignores_remainder
    {a : OrderArgs} (ha : a.marketOrderId ≠ m) (replacing : Bool)
    (q : Quantity) :
    (∀ x ∈ messages [.rested replacing a q], Output.Ignores m x) ∧
      ∀ x ∈ messages [.killed replacing a q], Output.Ignores m x := by
  have hadd : (Output.update (addUpdate a q)).Ignores m :=
    Output.ignores_update (.inl ha)
  have hcancel : (Output.update (cancelUpdate a.tickerId a.marketOrderId
      a.side a.price q)).Ignores m := Output.ignores_update (.inl ha)
  have hkill : (Output.response (killedResponse a q)).Ignores m :=
    Output.ignores_response (.inl ha)
  cases replacing <;>
    simp [messages, Event.outputs, Dialect.map, hadd, hcancel, hkill]

/-- **An incoming order keeps the books of every other order.** -/
theorem enter_ledger_of_ne
    (h : Ledger m out acc) (hshows : A.Shows m acc) (hwf : A.WF)
    (hids : A.Ids) {a : OrderArgs} (ha : a.marketOrderId ≠ m) (n : OrderId)
    (replacing : Bool) :
    ∃ acc', Ledger m (out ++ messages (A.enter n replacing a).events) acc' ∧
      (A.enter n replacing a).ladder.Shows m acc' ∧
      (acc = .unannounced ↔ acc' = .unannounced) := by
  -- first the sweep, then the remainder
  obtain ⟨acc', h', hshows', hacc⟩ : ∃ acc',
      Ledger m (out ++ messages (A.sweepBy n a).fills) acc' ∧
      (A.swept n a).Shows m acc' ∧
      (acc = .unannounced ↔ acc' = .unannounced) := by
    have hnone : (∀ o ∈ A.orders, o.marketOrderId ≠ m) →
        Ledger m (out ++ messages (A.sweepBy n a).fills) acc ∧
          ∀ o ∈ (A.swept n a).orders, o.marketOrderId ≠ m := by
      intro hall
      exact ⟨h.sweep_of_not_mem ha
        (fun o ho => hall o (mem_orders_of_side ho)) n _,
        (trims_swept hwf n a).ids_ne hall⟩
    cases acc with
    | unannounced => exact ⟨_, (hnone hshows).1, (hnone hshows).2, Iff.rfl⟩
    | replaced Q left => exact ⟨_, (hnone hshows).1, (hnone hshows).2, Iff.rfl⟩
    | live Q left =>
        obtain rfl : left = _ := hshows
        rw [A.held_orders m a.side] at h
        exact ⟨_, h.sweep_resting ha (hids.side_nodup _)
          (hwf.side_pos _) (fun o ho hm => hids.held_side_eq_zero ho hm) n _,
          (A.held_swept m n a).symm, by simp⟩
  have hrem := ignores_remainder ha replacing (A.sweepBy n a).remaining
  rcases A.enter_cases n replacing a with
    ⟨-, heq⟩ | ⟨-, -, heq⟩ | ⟨-, -, heq⟩
  · rw [heq]
    exact ⟨acc', h', hshows', hacc⟩
  · rw [heq, messages_append, ← List.append_assoc]
    refine ⟨acc', h'.ignore_all hrem.1, ?_, hacc⟩
    have hne : (OrderArgs.toInfo { a with
      initialQuantity := (A.sweepBy n a).remaining }).marketOrderId ≠ m := ha
    have hinsert : ∀ o ∈ ((A.swept n a).insert (OrderArgs.toInfo { a with
        initialQuantity := (A.sweepBy n a).remaining })).orders,
        o.marketOrderId = m → o ∈ (A.swept n a).orders := by
      intro o ho hm
      rcases mem_insert_orders.mp ho with rfl | ho
      · exact absurd hm hne
      · exact ho
    cases acc' with
    | unannounced => exact fun o ho hm => hshows' o (hinsert o ho hm) hm
    | replaced Q left => exact fun o ho hm => hshows' o (hinsert o ho hm) hm
    | live Q left => exact Eq.trans hshows' (held_insert_of_ne _ hne).symm
  · rw [heq, messages_append, ← List.append_assoc]
    exact ⟨acc', h'.ignore_all hrem.2, hshows', hacc⟩

/-- **An incoming order keeps its own books.** -/
theorem enter_ledger_self
    {Q : Quantity} {a : OrderArgs}
    (h : Ledger m out (.live Q a.initialQuantity)) (hwf : A.WF)
    (hnew : ∀ o ∈ A.orders, o.marketOrderId ≠ m)
    (ha : a.marketOrderId = m) (n : OrderId) (replacing : Bool) :
    Ledger m (out ++ messages (A.enter n replacing a).events)
      (.live Q (held m (A.enter n replacing a).ladder.orders)) := by
  have hsweep := h.sweep_incoming (R := a.side.crosses a.price) ha
    (hwf.side_pos a.side.opposite)
    (fun o ho => hnew o (mem_orders_of_side ho)) n
  have hzero : held m (A.swept n a).orders = 0 :=
    held_eq_zero ((trims_swept hwf n a).ids_ne hnew)
  rcases A.enter_cases n replacing a with
    ⟨hrem, heq⟩ | ⟨hrem, -, heq⟩ | ⟨hrem, -, heq⟩
  · rw [heq, hzero, ← hrem]
    exact hsweep
  · rw [heq, messages_append, ← List.append_assoc,
      held_perm ((A.swept n a).insert_orders_perm _),
      held_cons_self (by exact ha), hzero]
    refine hsweep.ignore_all fun x hx => ?_
    cases replacing with
    | false =>
        obtain rfl : x = .update (addUpdate a (A.sweepBy n a).remaining) := by
          simpa [messages, Event.outputs] using hx
        exact Output.ignores_update (.inr (by simp [addUpdate]))
    | true => simp [messages, Event.outputs] at hx
  · have hkilled := hsweep.canceled
      (r := killedResponse a (A.sweepBy n a).remaining) (Q := Q) ha rfl
      (Nat.pos_of_ne_zero hrem) (Nat.add_zero _)
    rw [heq, messages_append, ← List.append_assoc, hzero]
    cases replacing with
    | false => exact hkilled
    | true =>
        have hcancel := hkilled.ignored (o := .update (cancelUpdate a.tickerId
          a.marketOrderId a.side a.price (A.sweepBy n a).remaining))
          (Output.ignores_update (.inr (by simp [cancelUpdate])))
        rwa [List.append_assoc] at hcancel

section Withdraw

variable {o : OrderInfo}

/-- Taking shares of one order away does not concern another. -/
theorem Shows.of_withdraw_ne
    (hshows : A.Shows m acc) (hwf : A.WF) (ho : o ∈ A.orders)
    (hne : o.marketOrderId ≠ m) (qty : Quantity) :
    (A.erase o.key).Shows m acc ∧ (A.withdraw o qty).Shows m acc := by
  have hkey : ∀ x ∈ A.orders, x.marketOrderId = m → x.key ≠ o.key := by
    rintro x hx hxm hkey
    obtain rfl := hwf.key_unique hx ho hkey
    exact hne hxm
  have hheld : ∀ s, held m ((A.erase o.key).side s) = held m (A.side s) ∧
      ∀ q, held m ((A.setRemaining o.key q).side s) = held m (A.side s) := by
    intro s
    constructor
    · refine held_filter fun x hx hxm => ?_
      simpa using hkey x (mem_orders_of_side hx) hxm
    · intro q
      refine held_map (fun x => ?_) fun x hx hxm => ?_
      · split_ifs <;> rfl
      · exact if_neg (hkey x (mem_orders_of_side hx) hxm)
  have herase := trims_erase hwf o.key
  have hwithdraw := trims_withdraw hwf ho qty
  cases acc with
  | unannounced => exact ⟨herase.ids_ne hshows, hwithdraw.ids_ne hshows⟩
  | replaced Q left => exact ⟨herase.ids_ne hshows, hwithdraw.ids_ne hshows⟩
  | live Q left =>
      obtain rfl : left = _ := hshows
      have herased : held m A.orders = held m (A.erase o.key).orders := by
        rw [A.held_orders m .buy, held_orders _ m .buy, (hheld _).1,
          (hheld _).1]
      refine ⟨herased, ?_⟩
      unfold withdraw
      split_ifs
      · exact herased
      · show held m A.orders = held m (A.setRemaining o.key _).orders
        rw [A.held_orders m .buy, held_orders _ m .buy, (hheld _).2,
          (hheld _).2]

/-- An order that has been taken out holds nothing. -/
theorem Ids.not_mem_erase
    (hids : A.Ids) (ho : o ∈ A.orders) (hm : o.marketOrderId = m) :
    ∀ x ∈ (A.erase o.key).orders, x.marketOrderId ≠ m := by
  intro x hx hxm
  obtain ⟨s, hx⟩ := mem_orders.mp hx
  obtain ⟨hx, hkey⟩ := List.mem_filter.mp hx
  obtain rfl : x = o := List.inj_on_of_nodup_map hids.nodup
    (mem_orders_of_side hx) ho (hxm.trans hm.symm)
  simp at hkey

/-- What an order holds after shares have been withdrawn. -/
theorem held_withdraw
    (hwf : A.WF) (hids : A.Ids) (ho : o ∈ A.orders)
    (hm : o.marketOrderId = m) (qty : Quantity) :
    held m (A.withdraw o qty).orders = o.remainingQuantity - qty := by
  have htrims := trims_withdraw hwf ho qty
  unfold withdraw at htrims ⊢
  split_ifs at htrims ⊢ with hleft
  · rw [held_eq_zero (hids.not_mem_erase ho hm), hleft]
  · obtain ⟨s, hs⟩ := mem_orders.mp ho
    have hmem : o.withRemaining (o.remainingQuantity - qty) ∈
        (A.setRemaining o.key (o.remainingQuantity - qty)).orders := by
      refine mem_orders.mpr ⟨s, List.mem_map.mpr ⟨o, hs, if_pos rfl⟩⟩
    exact held_eq_of_mem (htrims.ids le_rfl hids).nodup hmem hm

end Withdraw

/-- The account of `m` agrees with the ladder, and an id that has not been
given out has no account. -/
def Tracks (A : Ladder) (m : OrderId) (acc : Account) : Prop :=
  A.Shows m acc ∧ (acc = .unannounced ∨ m < A.nextMarketOrderId)

/-- The account of a resting order. -/
theorem Tracks.live_of_mem
    (h : A.Tracks m acc) (hids : A.Ids) {o : OrderInfo} (ho : o ∈ A.orders)
    (hm : o.marketOrderId = m) :
    ∃ Q, acc = .live Q o.remainingQuantity := by
  obtain ⟨hshows, -⟩ := h
  cases acc with
  | unannounced => exact absurd hm (hshows o ho)
  | replaced Q left => exact absurd hm (hshows o ho)
  | live Q left =>
      obtain rfl : left = _ := hshows
      exact ⟨Q, by rw [held_eq_of_mem hids.nodup ho hm]⟩

/-- The next id to be given out has no account. -/
theorem Tracks.unannounced
    (h : A.Tracks A.nextMarketOrderId acc) :
    acc = .unannounced := by
  rcases h.2 with hacc | hlt
  · exact hacc
  · exact absurd hlt (lt_irrefl _)

/-- A withdrawal keeps the books. -/
theorem withdraw_ledger
    (h : Ledger m out acc) (htracks : A.Tracks m acc) (hwf : A.WF)
    (hids : A.Ids) {o : OrderInfo} (ho : o ∈ A.orders) (tickerId : TickerId)
    {qty : Quantity} (hpos : 0 < qty) (hle : qty ≤ o.remainingQuantity) :
    ∃ acc', Ledger m (out ++ messages [.canceled tickerId o qty]) acc' ∧
      (A.withdraw o qty).Tracks m acc' := by
  have hupdate := h.ignored (o := .update (cancelUpdate tickerId
    o.marketOrderId o.side o.price qty))
    (Output.ignores_update (.inr (by simp [cancelUpdate])))
  have hnext : (A.withdraw o qty).nextMarketOrderId =
      A.nextMarketOrderId := by
    dsimp only [withdraw]
    split_ifs <;> rfl
  by_cases hm : o.marketOrderId = m
  · obtain ⟨Q, rfl⟩ := htracks.live_of_mem hids ho hm
    have hcanceled := hupdate.canceled
      (r := canceledResponse tickerId o.clientId o.clientOrderId o qty) hm rfl
      hpos (Nat.add_sub_cancel' hle)
    rw [List.append_assoc] at hcanceled
    refine ⟨_, hcanceled, (held_withdraw hwf hids ho hm _).symm, .inr ?_⟩
    rw [hnext, ← hm]
    exact hids.below o ho
  · have hresponse := hupdate.ignored (o := .response (canceledResponse
      tickerId o.clientId o.clientOrderId o qty))
      (Output.ignores_response (.inl hm))
    rw [List.append_assoc] at hresponse
    refine ⟨acc, hresponse, (htracks.1.of_withdraw_ne hwf ho hm _).2, ?_⟩
    rw [hnext]
    exact htracks.2

/-- An incoming order keeps the books of every id, once its announcement has
been entered: `B` is the ladder that it is matched against. -/
theorem incoming_ledger
    {B : Ladder} {a : OrderArgs} (h : Ledger m out acc)
    (hacc : (a.marketOrderId = m ∧
        acc = .live a.initialQuantity a.initialQuantity ∧
        ∀ o ∈ B.orders, o.marketOrderId ≠ m) ∨
      (a.marketOrderId ≠ m ∧ B.Shows m acc ∧
        (acc = .unannounced ∨ m < a.marketOrderId)))
    (hwf : B.WF) (hids : B.Ids)
    (hnext : B.nextMarketOrderId = a.marketOrderId + 1) (n : OrderId)
    (replacing : Bool) :
    ∃ acc', Ledger m (out ++ messages (B.enter n replacing a).events) acc' ∧
      (B.enter n replacing a).ladder.Tracks m acc' := by
  rcases hacc with ⟨hm, rfl, hnew⟩ | ⟨hm, hshows, hacc⟩
  · refine ⟨_, enter_ledger_self h hwf hnew hm n replacing, rfl, .inr ?_⟩
    rw [enter_next, hnext, hm]
    exact Nat.lt_succ_self _
  · obtain ⟨acc', h', hshows', hacc'⟩ :=
      enter_ledger_of_ne h hshows hwf hids hm n replacing
    refine ⟨acc', h', hshows', ?_⟩
    rw [enter_next, hnext]
    exact hacc.imp hacc'.mp fun hlt => hlt.trans (Nat.lt_succ_self _)

/-- A new order keeps the books. -/
theorem new_ledger
    (h : Ledger m out acc) (htracks : A.Tracks m acc) (hwf : A.WF)
    (hids : A.Ids) (n : OrderId) (r : MEClientRequest)
    (hbump : A.bump.nextMarketOrderId = A.nextMarketOrderId + 1) :
    ∃ acc', Ledger m (out ++ messages (.accepted (A.newArgs r) ::
        (A.bump.enter n false (A.newArgs r)).events)) acc' ∧
      (A.bump.enter n false (A.newArgs r)).ladder.Tracks m acc' := by
  have hself : A.Trims A.bump := trims_bump hwf
  have hids' := hself.ids (by rw [hbump]; exact Nat.le_succ _) hids
  rw [messages_cons, ← List.append_assoc]
  by_cases hm : A.nextMarketOrderId = m
  · subst hm
    obtain rfl := htracks.unannounced
    have hann := h.announced (r := acceptedResponse (A.newArgs r)) rfl
      (.inl rfl)
    exact incoming_ledger (B := A.bump) hann (.inl ⟨rfl, rfl, htracks.1⟩)
      (hself.wf hwf) hids' hbump n false
  · have hign := h.ignored (o := .response (acceptedResponse (A.newArgs r)))
      (Output.ignores_response (.inl hm))
    exact incoming_ledger (B := A.bump) hign (.inr ⟨hm, htracks.1, htracks.2⟩)
      (hself.wf hwf) hids' hbump n false

/-- A replacement keeps the books. -/
theorem replace_ledger
    (h : Ledger m out acc) (htracks : A.Tracks m acc) (hwf : A.WF)
    (hids : A.Ids) (n : OrderId) (r : MEClientRequest) {old : OrderInfo}
    (ho : old ∈ A.orders)
    (hbump : A.bump.nextMarketOrderId = A.nextMarketOrderId + 1) :
    ∃ acc', Ledger m (out ++ messages
        (.modified (A.replacementArgs r old.side) old ::
          ((A.erase old.key).bump.enter n true
            (A.replacementArgs r old.side)).events)) acc' ∧
      ((A.erase old.key).bump.enter n true
        (A.replacementArgs r old.side)).ladder.Tracks m acc' := by
  have herase := trims_erase hwf old.key
  have hself := herase.trans (trims_bump (herase.wf hwf))
  have hold := hids.below old ho
  have hnext : (A.erase old.key).bump.nextMarketOrderId =
      A.nextMarketOrderId + 1 := hbump
  have hids' := hself.ids (by rw [hnext]; exact Nat.le_succ _) hids
  rw [messages_cons, ← List.append_assoc]
  -- the account after the response and the update, before the matching
  obtain ⟨acc₁, h₁, hacc₁⟩ : ∃ acc₁,
      Ledger m (out ++ Event.outputs .map
        (.modified (A.replacementArgs r old.side) old)) acc₁ ∧
      ((A.nextMarketOrderId = m ∧ acc₁ = .live r.qty r.qty ∧
          ∀ o ∈ (A.erase old.key).bump.orders, o.marketOrderId ≠ m) ∨
        (A.nextMarketOrderId ≠ m ∧ (A.erase old.key).bump.Shows m acc₁ ∧
          (acc₁ = .unannounced ∨ m < A.nextMarketOrderId))) := by
    by_cases hm : A.nextMarketOrderId = m
    · subst hm
      obtain rfl := htracks.unannounced
      have hann := h.announced
        (r := modifiedResponse (A.replacementArgs r old.side)) rfl (.inr rfl)
      have hupdate := hann.ignored (o := .update (modifyUpdate
        (A.replacementArgs r old.side) old.marketOrderId))
        (Output.ignores_update (.inl hold.ne))
      rw [List.append_assoc] at hupdate
      exact ⟨_, hupdate, .inl ⟨rfl, rfl, hself.ids_ne htracks.1⟩⟩
    · have hign := h.ignored
        (o := .response (modifiedResponse (A.replacementArgs r old.side)))
        (Output.ignores_response (.inl hm))
      by_cases hm' : old.marketOrderId = m
      · obtain ⟨Q, rfl⟩ := htracks.live_of_mem hids ho hm'
        have hrep := hign.replaced (u := modifyUpdate
          (A.replacementArgs r old.side) old.marketOrderId) hm' rfl
        rw [List.append_assoc] at hrep
        exact ⟨_, hrep, .inr ⟨hm, hids.not_mem_erase ho hm',
          .inr (hm' ▸ hold)⟩⟩
      · have hupdate := hign.ignored (o := .update (modifyUpdate
          (A.replacementArgs r old.side) old.marketOrderId))
          (Output.ignores_update (.inl hm'))
        rw [List.append_assoc] at hupdate
        exact ⟨acc, hupdate, .inr ⟨hm,
          (htracks.1.of_withdraw_ne hwf ho hm' 0).1, htracks.2⟩⟩
  exact incoming_ledger h₁ hacc₁ (hself.wf hwf) hids' hnext n true

/-- **Every request keeps the books.** -/
theorem step_ledger
    (h : Ledger m out acc) (htracks : A.Tracks m acc) (hwf : A.WF)
    (hids : A.Ids) (n : OrderId) (r : MEClientRequest)
    (hbound : A.nextMarketOrderId + 1 < wordSize) :
    ∃ acc', Ledger m (out ++ messages (A.step n r).events) acc' ∧
      (A.step n r).ladder.Tracks m acc' := by
  have hbump : A.bump.nextMarketOrderId = A.nextMarketOrderId + 1 :=
    Nat.mod_eq_of_lt hbound
  rcases A.step_shapes n r with
    ⟨e, -, heq, he⟩ | ⟨o, -, hfind, hle, heq⟩ | ⟨-, heq⟩ |
      ⟨old, -, hfind, -, heq⟩
  · -- turned down: a CANCEL_REJECTED response
    rw [heq]
    refine ⟨acc, h.ignore_all ?_, htracks⟩
    rcases he with rfl | ⟨o, -, rfl⟩ <;>
      simp only [messages_singleton, Event.outputs, rejection,
        List.mem_singleton, forall_eq] <;>
      exact Output.ignores_response (.inr rfl)
  · obtain ⟨ho, -⟩ := mem_of_find? hfind
    have hpos : 0 < canceledQty r o := by
      unfold canceledQty
      split_ifs with hq
      · exact (hwf.quantity o ho).1
      · exact Nat.pos_of_ne_zero hq
    rw [heq]
    exact withdraw_ledger h htracks hwf hids ho r.tickerId hpos hle
  · rw [heq]
    exact new_ledger h htracks hwf hids n r hbump
  · rw [heq]
    exact replace_ledger h htracks hwf hids n r (mem_of_find? hfind).1 hbump

/-- **Every run of a ladder keeps the books of every id.** -/
theorem run_ledger
    (m n : OrderId) {rs : List MEClientRequest} (hfresh : FreshKeys rs)
    (hlen : rs.length < 2 ^ 63) :
    ∃ acc, Ledger m (messages (run n rs).events) acc ∧
      (run n rs).ladder.Tracks m acc := by
  refine (run_induction
    (fun t => ∃ acc, Ledger m (messages t.events) acc ∧
      t.ladder.Tracks m acc) ?_ ?_ hfresh (length_lt_wordSize hlen)).1
  · refine ⟨.unannounced, Ledger.nil, ?_, .inl rfl⟩
    simp [Shows, StepResult.start, Ladder.empty, orders]
  · rintro t r hwf hids - hbound ⟨acc, h, htracks⟩
    show ∃ acc, Ledger m (messages (t.events ++ _)) acc ∧ _
    rw [messages_append]
    exact step_ledger h htracks hwf hids t.matchIds r hbound

end Ladder

namespace OrderBook

/-- The shares of `m`, announced with quantity `Q`, are accounted for in the
messages `out` and in the book. -/
structure Conserves {Lv P : Type} [LevelTable Lv] (b : OrderBook Lv P)
    (out : List Output) (m : OrderId) (Q : Quantity) : Prop where
  /-- There is one announcement. -/
  announced_once : announcements m out = [Q]
  /-- Every EXECUTED or CANCELED response comes after it, before the shares
  are used up and before `m` is replaced. -/
  bookings : ∀ pre o post, out = pre ++ o :: post → o.booked m ≠ none →
    announcements m pre = [Q] ∧ bookedQty m pre < Q ∧ ¬ Replaced m pre
  /-- An EXECUTED response states what is left after it. -/
  leaves : ∀ pre r post, out = pre ++ .response r :: post →
    r.marketOrderId = m → r.status = .executed →
    bookedQty m (pre ++ [.response r]) + r.leavesQty = Q
  /-- What is booked and what rests make up the announced quantity. -/
  balance : ¬ Replaced m out →
    (∀ s k o, b.Rests s k o → o.marketOrderId = m →
      bookedQty m out + o.remainingQuantity = Q) ∧
    ((∀ s k o, b.Rests s k o → o.marketOrderId ≠ m) → bookedQty m out = Q)

end OrderBook

theorem Rep.conserves
    {P : Type} [ObjectPool P] {b : MapBook P} {A : Ladder} (h : Rep b A)
    (hids : A.Ids) {m : OrderId} {out : List Output} {acc : Account}
    (hledger : Ledger m out acc) (htracks : A.Tracks m acc) {Q : Quantity}
    (hQ : Q ∈ announcements m out) :
    b.Conserves out m Q := by
  obtain ⟨hbal, halong⟩ := hledger.sound
  have honce : announcements m out = [Q] := by
    cases acc with
    | unannounced =>
        rw [hbal.1] at hQ
        cases hQ
    | live Q' left =>
        rw [hbal.1, List.mem_singleton] at hQ
        rw [hbal.1, hQ]
    | replaced Q' left =>
        rw [hbal.1, List.mem_singleton] at hQ
        rw [hbal.1, hQ]
  -- an announcement before some message is the announcement
  have hpre : ∀ pre o post Q', out = pre ++ o :: post →
      announcements m pre = [Q'] → Q' = Q := by
    rintro pre o post Q' rfl hQ'
    have hmem : Q' ∈ announcements m (pre ++ o :: post) := by
      rw [announcements, List.filterMap_append]
      refine List.mem_append_left _ ?_
      rw [← announcements, hQ']
      exact List.mem_singleton_self _
    rw [honce] at hmem
    exact List.mem_singleton.mp hmem
  refine ⟨honce, ?_, ?_, ?_⟩
  · intro pre o post hout hbooked
    obtain ⟨Q', hann, hrep, hlt, -⟩ := halong pre o post hout hbooked
    obtain rfl := hpre pre o post Q' hout hann
    exact ⟨hann, hlt, hrep⟩
  · intro pre r post hout hid hstatus
    obtain ⟨Q', hann, -, -, hleaves⟩ := halong pre _ post hout
      (by simp [Output.booked, hid, hstatus])
    obtain rfl := hpre pre _ post Q' hout hann
    exact hleaves r rfl hstatus
  · intro hrep
    cases acc with
    | unannounced =>
        rw [hbal.1] at honce
        cases honce
    | replaced Q' left => exact absurd hbal.2 hrep
    | live Q' left =>
        obtain ⟨hann, hsum, -⟩ := hbal
        obtain rfl : Q' = Q := List.singleton_inj.mp (hann.symm.trans honce)
        obtain rfl : left = held m A.orders := htracks.1
        constructor
        · intro s k o ho hm
          have hmem := Ladder.mem_orders_of_side (h.mem_of_rests ho).1
          rwa [held_eq_of_mem hids.nodup hmem hm] at hsum
        · intro hnone
          rwa [held_eq_zero] at hsum
          intro o ho
          obtain ⟨s, hs⟩ := Ladder.mem_orders.mp ho
          exact hnone s _ o (h.rests hs)

/-- **Shares are conserved** in every run of the map book of fewer than `2^63`
requests: no subtraction of quantities wraps, and unless the pool runs out of
objects, the shares of every announced order are accounted for. -/
theorem map_book_conserves_shares
    (P : Type) [ObjectPool P] (size : Nat) (n : OrderId)
    {rs : List MEClientRequest} (hfresh : FreshKeys rs)
    (hlen : rs.length < 2 ^ 63) :
    OrderBook.run MapLevels P size n rs ≠ .error .underflow ∧
      SucceedsWith (OrderBook.run MapLevels P size n rs) fun s =>
        ∀ m Q, Q ∈ announcements m s.2.outputs →
          s.1.Conserves s.2.outputs m Q := by
  have hrun := MapBook.run_refines P size n hfresh
  refine ⟨?_, hrun.imp ?_⟩
  · rcases hrun with herror | ⟨s, hs, -⟩
    · simp [herror]
    · simp [hs]
  · rintro ⟨b, ch⟩ ⟨hrep, rfl⟩ m Q hQ
    obtain ⟨acc, hledger, htracks⟩ := Ladder.run_ledger m n hfresh hlen
    exact hrep.conserves (Ladder.run_ids n hfresh (length_lt_wordSize hlen)) hledger htracks hQ

/-- An ask is partly taken, partly canceled, and then taken by a FillAndKill
bid that is killed. -/
theorem map_book_conserves_shares_example :
    (OrderBook.run MapLevels ScanPool 4 1
        [.make .new 1 0 1 .goodTillCancel .sell 100 9,
          .make .new 2 0 1 .goodTillCancel .buy 100 3,
          .make .cancel 1 0 1 .goodTillCancel .sell 0 2,
          .make .new 2 0 2 .fillAndKill .buy 101 7]).isOk = true ∧
      OrderBook.run MapLevels ScanPool 4 1
        [.make .new 1 0 1 .goodTillCancel .sell 100 9,
          .make .new 2 0 1 .goodTillCancel .buy 100 3,
          .make .cancel 1 0 1 .goodTillCancel .sell 0 2,
          .make .new 2 0 2 .fillAndKill .buy 101 7] ≠ .error .underflow ∧
      SucceedsWith (OrderBook.run MapLevels ScanPool 4 1
        [.make .new 1 0 1 .goodTillCancel .sell 100 9,
          .make .new 2 0 1 .goodTillCancel .buy 100 3,
          .make .cancel 1 0 1 .goodTillCancel .sell 0 2,
          .make .new 2 0 2 .fillAndKill .buy 101 7]) fun s =>
        ∀ m Q, Q ∈ announcements m s.2.outputs →
          s.1.Conserves s.2.outputs m Q :=
  ⟨by decide, map_book_conserves_shares ScanPool 4 1 (by decide) (by decide)⟩

end NanoExchange
