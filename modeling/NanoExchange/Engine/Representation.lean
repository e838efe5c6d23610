import NanoExchange.Engine.OrderBook
import NanoExchange.Lib.Linked
import NanoExchange.Lib.Outcome
import NanoExchange.Lib.Priority

/-!
# What a book in memory represents

An order book in memory is a table of levels, a heap of linked orders and a
client index.  `LRep b L` says that it represents the *located* lists `L`: for
each side, the resting orders in priority order, each with the address it lives
at.  The queue of a level is the part of the list with that price.

The level table is described by `LawfulLevels`, in terms of its contents alone:
which levels are open, and their head and tail.  The three operations that
change a book (a write to an order, `remove`, `insert`) are shown here to keep
the representation, for every lawful table.
-/

namespace NanoExchange

open Lib

/-- The open levels of a table, with the head and tail of their queues. -/
abbrev Contents := Side → Price → Option (Option Ptr × Option Ptr)

namespace Contents

/-- Change the entry of one level. -/
def set (E : Contents) (s : Side) (k : Price)
    (v : Option (Option Ptr × Option Ptr)) : Contents :=
  fun s' k' => if s' = s ∧ k' = k then v else E s' k'

theorem set_same (E : Contents) (s : Side) (k : Price)
    (v : Option (Option Ptr × Option Ptr)) :
    E.set s k v s k = v := by
  simp [set]

theorem set_set (E : Contents) (s : Side) (k : Price)
    (v w : Option (Option Ptr × Option Ptr)) :
    (E.set s k v).set s k w = E.set s k w := by
  funext s' k'
  by_cases h : s' = s ∧ k' = k <;> simp [set, h]

/-- The levels of the side that is changed. -/
theorem set_side (E : Contents) (s : Side) (k : Price)
    (v : Option (Option Ptr × Option Ptr)) :
    E.set s k v s = Function.update (E s) k v := by
  funext k'
  simp [set, Function.update_apply]

/-- The levels of the other side. -/
theorem set_side_of_ne (E : Contents) {s s' : Side} (h : s' ≠ s) (k : Price)
    (v : Option (Option Ptr × Option Ptr)) :
    E.set s k v s' = E s' := by
  funext k'
  simp [set, h]

/-- An open level stays as it is when it is opened once more. -/
theorem set_getD (E : Contents) {s : Side} {k : Price}
    {e : Option Ptr × Option Ptr} (h : E s k = some e) :
    E.set s k (some ((some e).getD (none, none))) = E := by
  funext s' k'
  by_cases hsk : s' = s ∧ k' = k
  · simp [set, hsk.1, hsk.2, h]
  · simp [set, hsk]

end Contents

/-- The laws of a level table, over its contents. -/
class LawfulLevels (Lv : Type) [LevelTable Lv] where
  /-- The prices that the table can hold. -/
  Valid : Price → Prop
  /-- The table holds exactly these levels. -/
  Abs : Lv → Contents → Prop
  abs_empty : Abs LevelTable.empty fun _ _ => none
  best_none : ∀ {lv : Lv} {E : Contents} {s : Side},
    Abs lv E → LevelTable.best lv s = none → ∀ k, E s k = none
  best_some : ∀ {lv : Lv} {E : Contents} {s : Side} {k : Price},
    Abs lv E → LevelTable.best lv s = some k →
      (E s k).isSome ∧ ∀ k', (E s k').isSome → ¬ s.precedes k' k
  levelPrice_eq : ∀ {lv : Lv} {E : Contents} {s : Side} {k : Price},
    Abs lv E → (E s k).isSome → LevelTable.levelPrice lv s k = k
  loopHead_eq : ∀ {lv : Lv} {E : Contents} (s : Side) {k : Price},
    Abs lv E → Valid k →
      LevelTable.loopHead lv s k = .ok ((E s k).bind Prod.fst)
  openLevel_ok : ∀ {lv : Lv} {E : Contents} {s : Side} {k : Price},
    Abs lv E → Valid k → (∀ e, E s k = some e → e.1 ≠ none) →
      ∃ lv', LevelTable.openLevel lv s k = .ok lv' ∧
        Abs lv' (E.set s k (some ((E s k).getD (none, none))))
  fetch_ok : ∀ {lv : Lv} {E : Contents} {s : Side} {k : Price}
    {e : Option Ptr × Option Ptr},
    Abs lv E → Valid k → E s k = some e →
      ∃ level, LevelTable.fetch lv s k = .ok level ∧
        level.head = e.1 ∧ level.tail = e.2 ∧
        ∀ head tail,
          Abs (LevelTable.store lv s k
            { level with head := head, tail := tail })
            (E.set s k (some (head, tail)))
  valid_of_fetch : ∀ {lv : Lv} {s : Side} {k : Price} {level : PriceLevel},
    LevelTable.fetch lv s k = .ok level → Valid k
  fetch_closed : ∀ {lv : Lv} {E : Contents} {s : Side} {k : Price},
    Abs lv E → Valid k → E s k = none →
      ∃ level, LevelTable.fetch lv s k = .ok level ∧
        level.head = none ∧ level.tail = none
  closeLevel_abs : ∀ {lv : Lv} {E : Contents} {s : Side} {k : Price},
    Abs lv E → Valid k → E s k = some (none, none) →
      Abs (LevelTable.closeLevel lv s k) (E.set s k none)

namespace Heap

/-- `p->next_` -/
def next (h : Heap) (p : Ptr) : Option Ptr :=
  (h p).bind MEOrder.next

/-- `p->prev_` -/
def prev (h : Heap) (p : Ptr) : Option Ptr :=
  (h p).bind MEOrder.prev

/-- The fields of `*p` other than the links. -/
def info (h : Heap) (p : Ptr) : Option OrderInfo :=
  (h p).map MEOrder.info

theorem read_ok {h : Heap} {p : Ptr} {o : MEOrder} (hp : h p = some o) :
    h.read p = .ok o := by
  simp [read, hp]

theorem write_apply (h : Heap) (p q : Ptr) (o : MEOrder) :
    h.write p o q = if q = p then some o else h q := by
  simp [write, Function.update_apply]

theorem free_apply (h : Heap) (p q : Ptr) :
    h.free p q = if q = p then none else h q := by
  simp [free, Function.update_apply]

theorem next_write (h : Heap) (p q : Ptr) (o : MEOrder) :
    (h.write p o).next q = if q = p then o.next else h.next q := by
  by_cases hq : q = p <;> simp [next, write_apply, hq]

theorem prev_write (h : Heap) (p q : Ptr) (o : MEOrder) :
    (h.write p o).prev q = if q = p then o.prev else h.prev q := by
  by_cases hq : q = p <;> simp [prev, write_apply, hq]

theorem info_write (h : Heap) (p q : Ptr) (o : MEOrder) :
    (h.write p o).info q = if q = p then some o.info else h.info q := by
  by_cases hq : q = p <;> simp [info, write_apply, hq]

/-- Overwriting the fields of an order keeps the links. -/
theorem next_write_info
    {h : Heap} {p : Ptr} {mo : MEOrder} (hp : h p = some mo) (o : OrderInfo) :
    (h.write p { mo with info := o }).next = h.next := by
  funext q
  rw [next_write]
  by_cases hq : q = p <;> simp [hq, next, hp]

theorem prev_write_info
    {h : Heap} {p : Ptr} {mo : MEOrder} (hp : h p = some mo) (o : OrderInfo) :
    (h.write p { mo with info := o }).prev = h.prev := by
  funext q
  rw [prev_write]
  by_cases hq : q = p <;> simp [hq, prev, hp]

theorem exists_of_info {h : Heap} {p : Ptr} {o : OrderInfo}
    (hp : h.info p = some o) :
    ∃ mo, h p = some mo ∧ mo.info = o := by
  simpa [info] using hp

end Heap

/-- For each side, the resting orders in priority order, with their
addresses. -/
abbrev Located := Side → List (Ptr × OrderInfo)

/-- The price of a located order. -/
def slotPrice (e : Ptr × OrderInfo) : Price :=
  e.2.price

namespace Located

/-- The addresses of the queue of one level, head first. -/
def ptrs (L : Located) (s : Side) (k : Price) : List Ptr :=
  (queueAt slotPrice (L s) k).map Prod.fst

/-- The head and tail that a level with this queue has; none if it is empty. -/
def ends : List Ptr → Option (Option Ptr × Option Ptr)
  | [] => none
  | p :: l => some (some p, (p :: l).getLast?)

/-- The level table that belongs to the lists. -/
def contents (L : Located) : Contents :=
  fun s k => ends (L.ptrs s k)

/-- The order at `p` is taken out. -/
def drop (L : Located) (p : Ptr) : Located :=
  fun s => (L s).filter fun e => e.1 ≠ p

/-- The order at `p` is overwritten. -/
def rewrite (L : Located) (p : Ptr) (o : OrderInfo) : Located :=
  fun s => (L s).map fun e => if e.1 = p then (p, o) else e

/-- A new order is placed on its side. -/
def put (L : Located) (p : Ptr) (o : OrderInfo) : Located :=
  Function.update L o.side
    (place o.side.precedes slotPrice (p, o) (L o.side))

theorem mem_ptrs {L : Located} {s : Side} {k : Price} {p : Ptr} :
    p ∈ L.ptrs s k ↔ ∃ e ∈ L s, e.1 = p ∧ e.2.price = k := by
  simp only [ptrs, queueAt, List.mem_map, List.mem_filter, decide_eq_true_eq]
  constructor
  · rintro ⟨e, ⟨he, hk⟩, hp⟩
    exact ⟨e, he, hp, hk⟩
  · rintro ⟨e, he, hp, hk⟩
    exact ⟨e, ⟨he, hk⟩, hp⟩

theorem ends_eq_none {l : List Ptr} : ends l = none ↔ l = [] := by
  cases l <;> simp [ends]

theorem ends_of_ne_nil {l : List Ptr} (h : l ≠ []) :
    ends l = some (l.head?, l.getLast?) := by
  cases l with
  | nil => exact absurd rfl h
  | cons p l => rfl

theorem ends_getD (l : List Ptr) :
    (ends l).getD (none, none) = (l.head?, l.getLast?) := by
  cases l <;> rfl

theorem head_ne_none_of_ends {l : List Ptr} {e : Option Ptr × Option Ptr}
    (h : ends l = some e) : e.1 ≠ none := by
  cases l with
  | nil => cases h
  | cons p l =>
      obtain rfl := Option.some.inj h
      simp

theorem map_fst_rewrite (L : Located) (p : Ptr) (o : OrderInfo) (s : Side) :
    (L.rewrite p o s).map Prod.fst = (L s).map Prod.fst := by
  rw [rewrite, List.map_map]
  refine List.map_congr_left ?_
  intro e _
  by_cases hp : e.1 = p <;> simp [hp]

/-- The order at `p`, if there is one, is found by the same key, price and
side as `o`. -/
def Agrees (L : Located) (p : Ptr) (o : OrderInfo) : Prop :=
  ∀ s, ∀ e ∈ L s, e.1 = p →
    o.key = e.2.key ∧ o.price = e.2.price ∧ o.side = e.2.side

/-- Each located order keeps its address, price, side and key. -/
theorem Agrees.mem_rewrite
    {L : Located} {p : Ptr} {o : OrderInfo} (h : L.Agrees p o) {s : Side}
    {x : Ptr × OrderInfo} (hx : x ∈ L.rewrite p o s) :
    ∃ e ∈ L s, x.1 = e.1 ∧ x.2.price = e.2.price ∧ x.2.side = e.2.side ∧
      x.2.key = e.2.key ∧ x.2 = if e.1 = p then o else e.2 := by
  obtain ⟨e, he, rfl⟩ := List.mem_map.mp hx
  refine ⟨e, he, ?_⟩
  by_cases hp : e.1 = p
  · obtain ⟨hkey, hprice, hside⟩ := h s e he hp
    simp [hp, hkey, hprice, hside]
  · simp [hp]

theorem Agrees.sorted_rewrite
    {L : Located} {p : Ptr} {o : OrderInfo} (h : L.Agrees p o) {s : Side}
    (hs : InPriority s.precedes slotPrice (L s)) :
    InPriority s.precedes slotPrice (L.rewrite p o s) := by
  have hsame : ∀ e ∈ L s,
      slotPrice (if e.1 = p then (p, o) else e) = slotPrice e := by
    intro e he
    by_cases hp : e.1 = p
    · simp [hp, slotPrice, (h s e he hp).2.1]
    · simp [hp]
  refine List.pairwise_map.mpr (hs.imp_of_mem ?_)
  intro x y hx hy hxy
  rw [hsame x hx, hsame y hy]
  exact hxy

/-- Overwriting an order without changing its price keeps every queue. -/
theorem ptrs_rewrite
    {L : Located} {p : Ptr} {o : OrderInfo} {s : Side}
    (h : ∀ e ∈ L s, e.1 = p → e.2.price = o.price) (k : Price) :
    (L.rewrite p o).ptrs s k = L.ptrs s k := by
  unfold ptrs rewrite queueAt
  rw [List.filter_map, List.map_map]
  have hfilter :
      (L s).filter ((fun e => decide (slotPrice e = k)) ∘
          fun e => if e.1 = p then (p, o) else e) =
        (L s).filter fun e => decide (slotPrice e = k) := by
    refine List.filter_congr ?_
    intro e he
    by_cases hp : e.1 = p
    · simp [hp, slotPrice, h e he hp]
    · simp [hp]
  rw [hfilter]
  refine List.map_congr_left ?_
  intro e _
  by_cases hp : e.1 = p <;> simp [hp]

theorem ptrs_drop (L : Located) (p : Ptr) (s : Side) (k : Price) :
    (L.drop p).ptrs s k = (L.ptrs s k).filter fun q => q ≠ p := by
  unfold ptrs drop queueAt
  rw [List.filter_map, List.filter_comm]
  rfl

theorem filter_ne_of_nodup
    {l₁ l₂ : List Ptr} {p : Ptr} (h : (l₁ ++ p :: l₂).Nodup) :
    ((l₁ ++ p :: l₂).filter fun q => q ≠ p) = l₁ ++ l₂ := by
  have hp : p ∉ l₁ ++ l₂ := (List.nodup_middle.mp h).notMem
  have hself : (l₁ ++ l₂).filter (fun q => decide (q ≠ p)) = l₁ ++ l₂ := by
    refine List.filter_eq_self.mpr ?_
    intro q hq
    exact decide_eq_true fun heq => hp (heq ▸ hq)
  rw [List.filter_append, List.filter_cons_of_neg (by simp),
    ← List.filter_append, hself]

/-- A placed order joins the queue of its price at the end. -/
theorem ptrs_put
    {L : Located} {p : Ptr} {o : OrderInfo}
    (h : InPriority o.side.precedes slotPrice (L o.side))
    (s : Side) (k : Price) :
    (L.put p o).ptrs s k =
      if s = o.side ∧ k = o.price then L.ptrs s k ++ [p] else L.ptrs s k := by
  unfold ptrs put
  by_cases hs : s = o.side
  · subst hs
    rw [Function.update_self, filter_place (p, o) h k]
    by_cases hk : k = o.price
    · subst hk
      simp [slotPrice]
    · have hk' : o.price ≠ k := fun h => hk h.symm
      simp [slotPrice, hk, hk']
  · simp [hs]

end Located

namespace OrderBook

theorem unlinkPrev_ok
    {h : Heap} (level : PriceLevel) {order : MEOrder}
    (hq : ∀ q, order.prev = some q → ∃ o, h q = some o) :
    ∃ h', unlinkPrev h level order =
        .ok (h', { level with
          head := if order.prev = none then order.next else level.head }) ∧
      (∀ q, h'.next q =
        if order.prev = some q then order.next else h.next q) ∧
      (∀ q, h'.prev q = h.prev q) ∧
      (∀ q, h'.info q = h.info q) := by
  cases hprev : order.prev with
  | none =>
      exact ⟨h, by simp [unlinkPrev, hprev], by simp, by simp, by simp⟩
  | some p =>
      obtain ⟨o, ho⟩ := hq p hprev
      refine ⟨h.write p { o with next := order.next }, ?_, ?_, ?_, ?_⟩
      · simp [unlinkPrev, hprev, Heap.read_ok ho]
      · intro q
        rw [Heap.next_write]
        by_cases hqp : q = p
        · simp [hqp]
        · have hpq : p ≠ q := fun e => hqp e.symm
          simp [hqp, hpq]
      · intro q
        rw [Heap.prev_write]
        by_cases hqp : q = p <;> simp [hqp, Heap.prev, ho]
      · intro q
        rw [Heap.info_write]
        by_cases hqp : q = p <;> simp [hqp, Heap.info, ho]

theorem unlinkNext_ok
    {h : Heap} (level : PriceLevel) {order : MEOrder}
    (hq : ∀ q, order.next = some q → ∃ o, h q = some o) :
    ∃ h', unlinkNext h level order =
        .ok (h', { level with
          tail := if order.next = none then order.prev else level.tail }) ∧
      (∀ q, h'.next q = h.next q) ∧
      (∀ q, h'.prev q =
        if order.next = some q then order.prev else h.prev q) ∧
      (∀ q, h'.info q = h.info q) := by
  cases hnext : order.next with
  | none =>
      exact ⟨h, by simp [unlinkNext, hnext], by simp, by simp, by simp⟩
  | some p =>
      obtain ⟨o, ho⟩ := hq p hnext
      refine ⟨h.write p { o with prev := order.prev }, ?_, ?_, ?_, ?_⟩
      · simp [unlinkNext, hnext, Heap.read_ok ho]
      · intro q
        rw [Heap.next_write]
        by_cases hqp : q = p <;> simp [hqp, Heap.next, ho]
      · intro q
        rw [Heap.prev_write]
        by_cases hqp : q = p
        · simp [hqp]
        · have hpq : p ≠ q := fun e => hqp e.symm
          simp [hqp, hpq]
      · intro q
        rw [Heap.info_write]
        by_cases hqp : q = p <;> simp [hqp, Heap.info, ho]

/-- Both halves of unlinking the order `mo` between `l₁` and `l₂`. -/
theorem unlink_ok
    {h : Heap} {level : PriceLevel} {mo : MEOrder} {p : Ptr} {l₁ l₂ : List Ptr}
    (hhead : level.head = (l₁ ++ p :: l₂).head?)
    (htail : level.tail = (l₁ ++ p :: l₂).getLast?)
    (hprev : mo.prev = l₁.getLast?) (hnext : mo.next = l₂.head?)
    (hread : ∀ q ∈ l₁ ++ l₂, ∃ o, h q = some o) :
    ∃ h₁ level₁ h₂, unlinkPrev h level mo = .ok (h₁, level₁) ∧
      unlinkNext h₁ level₁ mo = .ok (h₂, { level with
        head := (l₁ ++ l₂).head?, tail := (l₁ ++ l₂).getLast? }) ∧
      (∀ q, h₂.next q =
        if l₁.getLast? = some q then l₂.head? else h.next q) ∧
      (∀ q, h₂.prev q =
        if l₂.head? = some q then l₁.getLast? else h.prev q) ∧
      (∀ q, h₂.info q = h.info q) := by
  have hread₁ : ∀ q, mo.prev = some q → ∃ o, h q = some o := by
    intro q hq
    rw [hprev] at hq
    exact hread q (List.mem_append_left _ (List.mem_of_getLast? hq))
  obtain ⟨h₁, hun₁, hn₁, hp₁, hi₁⟩ := unlinkPrev_ok level hread₁
  have hread₂ : ∀ q, mo.next = some q → ∃ o, h₁ q = some o := by
    intro q hq
    rw [hnext] at hq
    obtain ⟨x, hx⟩ := hread q
      (List.mem_append_right _ (List.mem_of_mem_head? hq))
    have hinfo : h₁.info q = some x.info := by
      rw [hi₁]
      simp [Heap.info, hx]
    obtain ⟨y, hy, -⟩ := Heap.exists_of_info hinfo
    exact ⟨y, hy⟩
  obtain ⟨h₂, hun₂, hn₂, hp₂, hi₂⟩ :=
    unlinkNext_ok { level with
      head := if mo.prev = none then mo.next else level.head } hread₂
  refine ⟨h₁, _, h₂, hun₁, ?_, ?_, ?_, ?_⟩
  · rw [hun₂, hprev, hnext, hhead, htail]
    congr 3
    · cases l₁ <;> simp
    · cases l₂ <;> simp
  · intro q
    rw [hn₂, hn₁, hprev, hnext]
  · intro q
    rw [hp₂, hp₁, hprev, hnext]
  · intro q
    rw [hi₂, hi₁]

/-- Appending an order `p` that is not yet linked to a level with queue `l`. -/
theorem linkBack_ok
    {h : Heap} {level : PriceLevel} {l : List Ptr} {p : Ptr} {order : MEOrder}
    (hhead : level.head = l.head?) (htail : level.tail = l.getLast?)
    (hp : h p = some order) (hpl : p ∉ l)
    (hl : ∀ q ∈ l, ∃ o, h q = some o) :
    ∃ h', linkBack h level p =
        .ok (h', { level with
          head := (l ++ [p]).head?, tail := some p }) ∧
      (∀ q, h'.next q = if l.getLast? = some q then some p else h.next q) ∧
      (∀ q, h'.prev q =
        if q = p ∧ l ≠ [] then l.getLast? else h.prev q) ∧
      (∀ q, h'.info q = h.info q) := by
  cases hlast : l.getLast? with
  | none =>
      obtain rfl : l = [] := List.getLast?_eq_none_iff.mp hlast
      refine ⟨h, ?_, by simp, by simp, by simp⟩
      simp [linkBack, hhead]
  | some t =>
      have htl : t ∈ l := List.mem_of_getLast? hlast
      have hne : l ≠ [] := List.ne_nil_of_mem htl
      have htp : t ≠ p := fun e => hpl (e ▸ htl)
      obtain ⟨last, hlast'⟩ := hl t htl
      obtain ⟨a, l', rfl⟩ := List.exists_cons_of_ne_nil hne
      have hread :
          Heap.read (h.write p { order with prev := some t }) t = .ok last :=
        Heap.read_ok (by rw [Heap.write_apply, if_neg htp, hlast'])
      refine ⟨(h.write p { order with prev := some t }).write t
        { last with next := some p }, ?_, ?_, ?_, ?_⟩
      · simp only [linkBack, hhead, List.head?_cons, htail, hlast,
          Heap.read_ok hp, ok_bind, hread, List.cons_append]
      · intro q
        rw [Heap.next_write, Heap.next_write]
        by_cases hqt : q = t
        · simp [hqt]
        · have htq : t ≠ q := fun e => hqt e.symm
          by_cases hqp : q = p
          · subst hqp
            simp [hqt, htq, Heap.next, hp]
          · simp [hqt, htq, hqp]
      · intro q
        rw [Heap.prev_write, Heap.prev_write]
        by_cases hqt : q = t
        · simp [hqt, htp, Heap.prev, hlast']
        · by_cases hqp : q = p
          · subst hqp
            simp [hqt]
          · simp [hqt, hqp]
      · intro q
        rw [Heap.info_write, Heap.info_write]
        by_cases hqt : q = t
        · simp [hqt, Heap.info, hlast']
        · by_cases hqp : q = p
          · subst hqp
            simp [hqt, Heap.info, hp]
          · simp [hqt, hqp]

end OrderBook

section Representation

variable {Lv P : Type} [LevelTable Lv] [LawfulLevels Lv] [ObjectPool P]

/-- The book `b` in memory holds exactly the located orders `L`. -/
structure LRep (b : OrderBook Lv P) (L : Located) : Prop where
  levels : LawfulLevels.Abs b.levels L.contents
  sorted : ∀ s, InPriority s.precedes slotPrice (L s)
  placed : ∀ s, ∀ e ∈ L s, e.2.side = s ∧ LawfulLevels.Valid Lv e.2.price
  nodup : ∀ s, ((L s).map Prod.fst).Nodup
  info : ∀ s, ∀ e ∈ L s, b.heap.info e.1 = some e.2
  linked : ∀ s k, Linked b.heap.next b.heap.prev (L.ptrs s k)
  live : ∀ s, ∀ e ∈ L s, e.1 ∈ ObjectPool.live b.pool
  index : ∀ c i p, b.orders.find c i = some p ↔
    ∃ s, ∃ e ∈ L s, e.1 = p ∧ e.2.key = (c, i)
  noEmpty : b.orders.NoEmpty

namespace LRep

variable {b : OrderBook Lv P} {L : Located}

/-- An address determines the order, and its side. -/
theorem unique
    (h : LRep b L) {s s' : Side} {e e' : Ptr × OrderInfo}
    (he : e ∈ L s) (he' : e' ∈ L s') (hp : e.1 = e'.1) :
    e = e' ∧ s = s' := by
  have hinfo : e.2 = e'.2 := by
    have h1 := h.info s e he
    rw [hp, h.info s' e' he'] at h1
    exact (Option.some.inj h1).symm
  refine ⟨Prod.ext hp hinfo, ?_⟩
  rw [← (h.placed s e he).1, hinfo, (h.placed s' e' he').1]

theorem ptrs_nodup (h : LRep b L) (s : Side) (k : Price) :
    (L.ptrs s k).Nodup :=
  (h.nodup s).sublist (List.filter_sublist.map _)

/-- Two queues that share an address are the same queue. -/
theorem ptrs_disjoint
    (h : LRep b L) {s s' : Side} {k k' : Price} {p : Ptr}
    (hp : p ∈ L.ptrs s k) (hp' : p ∈ L.ptrs s' k') :
    s' = s ∧ k' = k := by
  obtain ⟨e, he, rfl, rfl⟩ := Located.mem_ptrs.mp hp
  obtain ⟨e', he', hpe, rfl⟩ := Located.mem_ptrs.mp hp'
  obtain ⟨rfl, rfl⟩ := h.unique he' he hpe
  exact ⟨rfl, rfl⟩

theorem read
    (h : LRep b L) {s : Side} {k : Price} {p : Ptr} (hp : p ∈ L.ptrs s k) :
    ∃ mo, b.heap p = some mo := by
  obtain ⟨e, he, rfl, -⟩ := Located.mem_ptrs.mp hp
  obtain ⟨mo, hmo, -⟩ := Heap.exists_of_info (h.info s e he)
  exact ⟨mo, hmo⟩

/-- Overwriting a resting order, but for the fields it is found by. -/
theorem write
    (h : LRep b L) {s : Side} {p : Ptr} {o o' : OrderInfo} {mo : MEOrder}
    (he : (p, o) ∈ L s) (hmo : b.heap p = some mo)
    (hkey : o'.key = o.key) (hprice : o'.price = o.price)
    (hside : o'.side = o.side) :
    LRep { b with heap := b.heap.write p { mo with info := o' } }
      (L.rewrite p o') := by
  have hsame : L.Agrees p o' := by
    intro s' e he' hp
    rw [congrArg Prod.snd (h.unique he' he hp).1]
    exact ⟨hkey, hprice, hside⟩
  have hptrs : ∀ s' k, (L.rewrite p o').ptrs s' k = L.ptrs s' k :=
    fun s' k => Located.ptrs_rewrite
      (fun e he' hp => (hsame s' e he' hp).2.1.symm) k
  constructor
  · have hcontents : (L.rewrite p o').contents = L.contents := by
      funext s' k
      rw [Located.contents, hptrs, Located.contents]
    rw [hcontents]
    exact h.levels
  · exact fun s' => hsame.sorted_rewrite (h.sorted s')
  · intro s' x hx
    obtain ⟨e, he', -, hpr, hsd, -⟩ := hsame.mem_rewrite hx
    rw [hpr, hsd]
    exact h.placed s' e he'
  · intro s'
    rw [Located.map_fst_rewrite]
    exact h.nodup s'
  · intro s' x hx
    obtain ⟨e, he', hp, -, -, -, hx2⟩ := hsame.mem_rewrite hx
    rw [Heap.info_write, hp, hx2]
    by_cases hep : e.1 = p
    · simp [hep]
    · simpa [hep] using h.info s' e he'
  · intro s' k
    rw [hptrs, Heap.next_write_info hmo, Heap.prev_write_info hmo]
    exact h.linked s' k
  · intro s' x hx
    obtain ⟨e, he', hp, -⟩ := hsame.mem_rewrite hx
    rw [hp]
    exact h.live s' e he'
  · intro c i q
    rw [h.index]
    constructor
    · rintro ⟨s', e, he', rfl, hk⟩
      refine ⟨s', _, List.mem_map_of_mem he', ?_, ?_⟩
      · by_cases hp : e.1 = p <;> simp [hp]
      · by_cases hp : e.1 = p
        · simp [hp, (hsame s' e he' hp).1, hk]
        · simpa [hp] using hk
    · rintro ⟨s', x, hx, rfl, hk⟩
      obtain ⟨e, he', hp, -, -, hke, -⟩ := hsame.mem_rewrite hx
      exact ⟨s', e, he', hp.symm, hke ▸ hk⟩
  · exact h.noEmpty

/-- What is left of the index when the order at `p` is taken out. -/
theorem index_drop
    (h : LRep b L) {s : Side} {p : Ptr} {o : OrderInfo}
    (he : (p, o) ∈ L s) (c : ClientId) (i : OrderId) (q : Ptr) :
    (b.orders.unset o.clientId o.clientOrderId).find c i = some q ↔
      ∃ s', ∃ e ∈ L.drop p s', e.1 = q ∧ e.2.key = (c, i) := by
  have hp : b.orders.find o.clientId o.clientOrderId = some p :=
    (h.index _ _ _).mpr ⟨s, (p, o), he, rfl, rfl⟩
  rw [NestedIndex.find_unset]
  split_ifs with hk
  · obtain ⟨rfl, rfl⟩ := hk
    refine ⟨fun hn => absurd hn (by simp), ?_⟩
    rintro ⟨s', e, hd, -, hkey⟩
    obtain ⟨he', hne⟩ := List.mem_filter.mp hd
    have hfind := (h.index _ _ _).mpr ⟨s', e, he', rfl, hkey⟩
    rw [hp] at hfind
    exact absurd (Option.some.inj hfind).symm (of_decide_eq_true hne)
  · rw [h.index]
    constructor
    · rintro ⟨s', e, he', rfl, hkey⟩
      refine ⟨s', e, List.mem_filter.mpr ⟨he', decide_eq_true ?_⟩, rfl, hkey⟩
      intro hpe
      have heo : e.2 = o := congrArg Prod.snd (h.unique he' he hpe).1
      rw [heo] at hkey
      exact hk ⟨congrArg Prod.fst hkey, congrArg Prod.snd hkey⟩
    · rintro ⟨s', e, hd, hq, hkey⟩
      exact ⟨s', e, (List.mem_filter.mp hd).1, hq, hkey⟩

/-- Cut the queue of a resting order at that order. -/
theorem split_queue
    (h : LRep b L) {s : Side} {p : Ptr} {o : OrderInfo} (he : (p, o) ∈ L s) :
    ∃ l₁ l₂, L.ptrs s o.price = l₁ ++ p :: l₂ ∧
      b.heap.prev p = l₁.getLast? ∧ b.heap.next p = l₂.head? ∧
      (L.drop p).ptrs s o.price = l₁ ++ l₂ := by
  have hmem : p ∈ L.ptrs s o.price :=
    Located.mem_ptrs.mpr ⟨(p, o), he, rfl, rfl⟩
  obtain ⟨l₁, l₂, hl⟩ := List.append_of_mem hmem
  have hlinked := h.linked s o.price
  have hnodup := h.ptrs_nodup s o.price
  rw [hl] at hlinked hnodup
  obtain ⟨hprev, hnext⟩ := hlinked.neighbours
  refine ⟨l₁, l₂, hl, hprev, hnext, ?_⟩
  rw [Located.ptrs_drop, hl, Located.filter_ne_of_nodup hnodup]

/-- The queues of the other levels do not notice that an order leaves. -/
theorem ptrs_drop_other
    (h : LRep b L) {s s' : Side} {p : Ptr} {o : OrderInfo} {k : Price}
    (he : (p, o) ∈ L s) (hk : ¬ (s' = s ∧ k = o.price)) :
    (L.drop p).ptrs s' k = L.ptrs s' k := by
  rw [Located.ptrs_drop]
  refine List.filter_eq_self.mpr ?_
  intro q hq
  refine decide_eq_true ?_
  rintro rfl
  have hmem : q ∈ L.ptrs s o.price :=
    Located.mem_ptrs.mpr ⟨(q, o), he, rfl, rfl⟩
  exact hk (h.ptrs_disjoint hmem hq)

theorem contents_drop
    (h : LRep b L) {s : Side} {p : Ptr} {o : OrderInfo} (he : (p, o) ∈ L s) :
    (L.drop p).contents =
      L.contents.set s o.price (Located.ends ((L.drop p).ptrs s o.price)) := by
  funext s' k
  by_cases hk : s' = s ∧ k = o.price
  · obtain ⟨rfl, rfl⟩ := hk
    rw [Contents.set_same, Located.contents]
  · rw [Contents.set, if_neg hk, Located.contents, h.ptrs_drop_other he hk,
      Located.contents]

/-- The level table after an order has been unlinked: the level gets its new
head and tail, and is closed when these are null. -/
theorem levels_drop
    (h : LRep b L) {s : Side} {p : Ptr} {o : OrderInfo} {level : PriceLevel}
    {l : List Ptr} (he : (p, o) ∈ L s)
    (hl : (L.drop p).ptrs s o.price = l)
    (hstore : ∀ head tail, LawfulLevels.Abs
      (LevelTable.store b.levels s o.price
        { level with head := head, tail := tail })
      (L.contents.set s o.price (some (head, tail)))) :
    LawfulLevels.Abs
      (if l.head? = none then
        LevelTable.closeLevel (LevelTable.store b.levels s o.price
          { level with head := l.head?, tail := l.getLast? }) s o.price
      else LevelTable.store b.levels s o.price
          { level with head := l.head?, tail := l.getLast? })
      (L.drop p).contents := by
  rw [h.contents_drop he, hl]
  have habs := hstore l.head? l.getLast?
  cases l with
  | nil =>
      have hclosed := LawfulLevels.closeLevel_abs habs
        (h.placed s (p, o) he).2 (Contents.set_same _ _ _ _)
      rw [Contents.set_set] at hclosed
      simpa [Located.ends] using hclosed
  | cons q l => simpa [Located.ends] using habs

/-- The queues stay linked when the neighbours of the removed order `p` are
linked to each other and no other link changes. -/
theorem linked_drop
    (h : LRep b L) {s : Side} {p : Ptr} {o : OrderInfo} {l₁ l₂ : List Ptr}
    {next prev : Ptr → Option Ptr} (he : (p, o) ∈ L s)
    (hl : L.ptrs s o.price = l₁ ++ p :: l₂)
    (hdrop : (L.drop p).ptrs s o.price = l₁ ++ l₂)
    (hnext : ∀ q, q ≠ p → next q =
      if l₁.getLast? = some q then l₂.head? else b.heap.next q)
    (hprev : ∀ q, q ≠ p → prev q =
      if l₂.head? = some q then l₁.getLast? else b.heap.prev q)
    (s' : Side) (k : Price) :
    Linked next prev ((L.drop p).ptrs s' k) := by
  have hnodup : (l₁ ++ p :: l₂).Nodup := hl ▸ h.ptrs_nodup s o.price
  have hpmem : p ∉ l₁ ++ l₂ := (List.nodup_middle.mp hnodup).notMem
  by_cases hk : s' = s ∧ k = o.price
  · obtain ⟨rfl, rfl⟩ := hk
    rw [hdrop]
    refine Linked.unlink (hl ▸ h.linked s' o.price) hnodup ?_ ?_
    · exact fun q hq => hnext q fun e => hpmem (e ▸ hq)
    · exact fun q hq => hprev q fun e => hpmem (e ▸ hq)
  · rw [h.ptrs_drop_other he hk]
    have hout : ∀ q ∈ L.ptrs s' k, q ∉ l₁ ++ p :: l₂ := by
      intro q hq hq'
      exact hk (h.ptrs_disjoint (hl ▸ hq') hq)
    refine (h.linked s' k).congr ?_ ?_
    · intro q hq
      have hnot := hout q hq
      rw [hnext q (by rintro rfl; simp at hnot), if_neg]
      exact fun hlast => hnot
        (List.mem_append_left _ (List.mem_of_getLast? hlast))
    · intro q hq
      have hnot := hout q hq
      rw [hprev q (by rintro rfl; simp at hnot), if_neg]
      exact fun hfirst => hnot (List.mem_append_right _
        (List.mem_cons_of_mem _ (List.mem_of_mem_head? hfirst)))

/-- **`remove` takes exactly the given order out of the book.** -/
theorem remove
    (h : LRep b L) {s : Side} {p : Ptr} {o : OrderInfo} (he : (p, o) ∈ L s) :
    ∃ b', b.remove p = .ok b' ∧ LRep b' (L.drop p) ∧
      b'.nextMarketOrderId = b.nextMarketOrderId := by
  obtain ⟨mo, hmo, hinfo⟩ : ∃ mo, b.heap p = some mo ∧ mo.info = o :=
    Heap.exists_of_info (h.info s (p, o) he)
  obtain ⟨hside, hvalid⟩ : o.side = s ∧ LawfulLevels.Valid Lv o.price :=
    h.placed s (p, o) he
  obtain ⟨l₁, l₂, hl, hprev, hnext, hdrop⟩ := h.split_queue he
  have hcontents : L.contents s o.price =
      some ((l₁ ++ p :: l₂).head?, (l₁ ++ p :: l₂).getLast?) := by
    rw [Located.contents, hl]
    exact Located.ends_of_ne_nil (by simp)
  obtain ⟨level, hfetch, hhead, htail, hstore⟩ :=
    LawfulLevels.fetch_ok h.levels hvalid hcontents
  have hprev' : mo.prev = l₁.getLast? := by
    simpa [Heap.prev, hmo] using hprev
  have hnext' : mo.next = l₂.head? := by
    simpa [Heap.next, hmo] using hnext
  have hread : ∀ q ∈ l₁ ++ l₂, ∃ o, b.heap q = some o := by
    intro q hq
    refine h.read (s := s) (k := o.price) (hl ▸ ?_)
    simp only [List.mem_append, List.mem_cons] at hq ⊢
    tauto
  obtain ⟨h₁, level₁, h₂, hun₁, hun₂, hn, hp, hi⟩ :=
    OrderBook.unlink_ok hhead htail hprev' hnext' hread
  refine ⟨{ b with
    pool := ObjectPool.deallocate b.pool p
    heap := h₂.free p
    levels :=
      if (l₁ ++ l₂).head? = none then
        LevelTable.closeLevel (LevelTable.store b.levels s o.price
          { level with
            head := (l₁ ++ l₂).head?, tail := (l₁ ++ l₂).getLast? }) s o.price
      else LevelTable.store b.levels s o.price
        { level with head := (l₁ ++ l₂).head?, tail := (l₁ ++ l₂).getLast? }
    orders := b.orders.unset o.clientId o.clientOrderId }, ?_, ?_, rfl⟩
  · simp only [OrderBook.remove, Heap.read_ok hmo, ok_bind, hinfo, hside,
      hfetch, hun₁, hun₂]
  · have hfree : ∀ {q : Ptr}, q ≠ p → (h₂.free p) q = h₂ q := by
      intro q hq
      rw [Heap.free_apply, if_neg hq]
    have hnextq : ∀ q, q ≠ p → (h₂.free p).next q =
        if l₁.getLast? = some q then l₂.head? else b.heap.next q := by
      intro q hq
      rw [Heap.next, hfree hq, ← Heap.next, hn]
    have hprevq : ∀ q, q ≠ p → (h₂.free p).prev q =
        if l₂.head? = some q then l₁.getLast? else b.heap.prev q := by
      intro q hq
      rw [Heap.prev, hfree hq, ← Heap.prev, hp]
    constructor
    · exact h.levels_drop he hdrop hstore
    · exact fun s' => inPriority_filter (h.sorted s') _
    · exact fun s' e he' => h.placed s' e (List.mem_filter.mp he').1
    · exact fun s' => (h.nodup s').sublist (List.filter_sublist.map _)
    · intro s' e he'
      obtain ⟨hmem, hne⟩ := List.mem_filter.mp he'
      have hne : e.1 ≠ p := of_decide_eq_true hne
      show (h₂.free p).info e.1 = some e.2
      rw [Heap.info, hfree hne, ← Heap.info, hi]
      exact h.info s' e hmem
    · exact h.linked_drop he hl hdrop hnextq hprevq
    · intro s' e he'
      obtain ⟨hmem, hne⟩ := List.mem_filter.mp he'
      rw [ObjectPool.live_deallocate]
      exact ⟨h.live s' e hmem, of_decide_eq_true hne⟩
    · exact h.index_drop he
    · exact NestedIndex.noEmpty_unset h.noEmpty _ _

theorem mem_put {p : Ptr} {o : OrderInfo} {s : Side} {e : Ptr × OrderInfo}
    (he : e ∈ L.put p o s) :
    e ∈ L s ∨ (s = o.side ∧ e = (p, o)) := by
  by_cases hs : s = o.side
  · subst hs
    rw [Located.put, Function.update_self] at he
    rcases mem_place.mp he with rfl | he
    · exact Or.inr ⟨rfl, rfl⟩
    · exact Or.inl he
  · rw [Located.put, Function.update_of_ne hs] at he
    exact Or.inl he

theorem mem_put_of_mem {p : Ptr} {o : OrderInfo} {s : Side}
    {e : Ptr × OrderInfo} (he : e ∈ L s) :
    e ∈ L.put p o s := by
  by_cases hs : s = o.side
  · subst hs
    rw [Located.put, Function.update_self]
    exact mem_place.mpr (Or.inr he)
  · rwa [Located.put, Function.update_of_ne hs]

theorem mem_put_self (L : Located) (p : Ptr) (o : OrderInfo) :
    (p, o) ∈ L.put p o o.side := by
  rw [Located.put, Function.update_self]
  exact mem_place.mpr (Or.inl rfl)

theorem contents_put
    (h : LRep b L) (p : Ptr) (o : OrderInfo) :
    (L.put p o).contents =
      L.contents.set o.side o.price
        (some ((L.ptrs o.side o.price ++ [p]).head?, some p)) := by
  funext s k
  rw [Located.contents, Located.ptrs_put (h.sorted o.side), Contents.set]
  split_ifs with hk
  · obtain ⟨rfl, rfl⟩ := hk
    rw [Located.ends_of_ne_nil (by simp), List.getLast?_concat]
  · rfl

theorem sorted_put
    (h : LRep b L) (p : Ptr) (o : OrderInfo) (s : Side) :
    InPriority s.precedes slotPrice (L.put p o s) := by
  by_cases hs : s = o.side
  · subst hs
    rw [Located.put, Function.update_self]
    exact inPriority_place (h.sorted o.side)
  · rw [Located.put, Function.update_of_ne hs]
    exact h.sorted s

theorem nodup_put
    (h : LRep b L) {p : Ptr} {o : OrderInfo}
    (hp : ∀ s, ∀ e ∈ L s, e.1 ≠ p) (s : Side) :
    ((L.put p o s).map Prod.fst).Nodup := by
  by_cases hs : s = o.side
  · subst hs
    rw [Located.put, Function.update_self]
    refine ((place_perm _ _).map Prod.fst).nodup_iff.mpr ?_
    refine List.nodup_cons.mpr ⟨?_, h.nodup o.side⟩
    intro hmem
    obtain ⟨e, he, hep⟩ := List.mem_map.mp hmem
    exact hp o.side e he hep
  · rw [Located.put, Function.update_of_ne hs]
    exact h.nodup s

/-- The index with a new order, whose key is not in use. -/
theorem index_put
    (h : LRep b L) {p : Ptr} {o : OrderInfo}
    (hfresh : ∀ s, ∀ e ∈ L s, e.2.key ≠ o.key)
    (c : ClientId) (i : OrderId) (q : Ptr) :
    (b.orders.set o.clientId o.clientOrderId p).find c i = some q ↔
      ∃ s, ∃ e ∈ L.put p o s, e.1 = q ∧ e.2.key = (c, i) := by
  rw [NestedIndex.find_set]
  split_ifs with hk
  · obtain ⟨rfl, rfl⟩ := hk
    constructor
    · intro hq
      obtain rfl := Option.some.inj hq
      exact ⟨o.side, _, mem_put_self L p o, rfl, rfl⟩
    · rintro ⟨s, e, he, rfl, hkey⟩
      rcases mem_put he with he | ⟨-, rfl⟩
      · exact absurd hkey (hfresh s e he)
      · rfl
  · rw [h.index]
    constructor
    · rintro ⟨s, e, he, rfl, hkey⟩
      exact ⟨s, e, mem_put_of_mem he, rfl, hkey⟩
    · rintro ⟨s, e, he, rfl, hkey⟩
      rcases mem_put he with he | ⟨-, rfl⟩
      · exact ⟨s, e, he, rfl, hkey⟩
      · exact absurd ⟨congrArg Prod.fst hkey, congrArg Prod.snd hkey⟩ hk

/-- The queues stay linked when the new order `p` is linked behind the last
order of its price and no other link changes. -/
theorem linked_put
    (h : LRep b L) {p : Ptr} {o : OrderInfo} {next prev : Ptr → Option Ptr}
    (hp : ∀ s k, p ∉ L.ptrs s k)
    (hnext : ∀ q, q ≠ p → next q =
      if (L.ptrs o.side o.price).getLast? = some q then some p
      else b.heap.next q)
    (hprev : ∀ q, q ≠ p → prev q = b.heap.prev q)
    (hpnext : next p = none)
    (hpprev : prev p = (L.ptrs o.side o.price).getLast?)
    (s : Side) (k : Price) :
    Linked next prev ((L.put p o).ptrs s k) := by
  rw [Located.ptrs_put (h.sorted o.side)]
  split_ifs with hk
  · obtain ⟨rfl, rfl⟩ := hk
    have hlinked := h.linked o.side o.price
    have hnodup := h.ptrs_nodup o.side o.price
    rw [← List.append_nil (L.ptrs o.side o.price)] at hlinked hnodup
    refine hlinked.insert hnodup ?_ ?_ hpnext hpprev
    · intro q hq
      rw [List.append_nil] at hq
      exact hnext q fun e => hp _ _ (e ▸ hq)
    · intro q hq
      rw [List.append_nil] at hq
      rw [hprev q fun e => hp _ _ (e ▸ hq)]
      simp
  · refine (h.linked s k).congr ?_ ?_
    · intro q hq
      rw [hnext q fun e => hp _ _ (e ▸ hq), if_neg]
      intro hlast
      exact hk (h.ptrs_disjoint (List.mem_of_getLast? hlast) hq)
    · exact fun q hq => hprev q fun e => hp _ _ (e ▸ hq)

/-- **`insert` lets an order rest behind the orders of its price**, in an object
that the pool hands out. -/
theorem insert_of_allocate
    (h : LRep b L) {a : OrderArgs} (hvalid : LawfulLevels.Valid Lv a.price)
    (hfresh : ∀ s, ∀ e ∈ L s, e.2.key ≠ a.toInfo.key)
    {p : Ptr} {pool : P}
    (halloc : ObjectPool.allocate b.pool = some (p, pool)) :
    ∃ b', b.insert a = .ok b' ∧ LRep b' (L.put p a.toInfo) ∧
      b'.nextMarketOrderId = b.nextMarketOrderId := by
  have hpL : ∀ s, ∀ e ∈ L s, e.1 ≠ p := by
    rintro s e he rfl
    exact ObjectPool.fresh halloc (h.live s e he)
  have hpp : ∀ s k, p ∉ L.ptrs s k := by
    intro s k hp
    obtain ⟨e, he, hep, -⟩ := Located.mem_ptrs.mp hp
    exact hpL s e he hep
  set l := L.ptrs a.side a.price with hl
  obtain ⟨levels, hopen, habs⟩ :=
    LawfulLevels.openLevel_ok h.levels hvalid (s := a.side)
      fun e he => Located.head_ne_none_of_ends he
  rw [Located.contents, Located.ends_getD, ← hl] at habs
  obtain ⟨level, hfetch, hhead, htail, hstore⟩ :=
    LawfulLevels.fetch_ok habs hvalid (Contents.set_same _ _ _ _)
  have hnew : b.heap.write p { info := a.toInfo } p =
      some { info := a.toInfo } := by
    rw [Heap.write_apply, if_pos rfl]
  have hold : ∀ q ∈ l, ∃ o,
      b.heap.write p { info := a.toInfo } q = some o := by
    intro q hq
    obtain ⟨mo, hmo⟩ := h.read hq
    refine ⟨mo, ?_⟩
    rw [Heap.write_apply, if_neg fun e => hpp _ _ (e ▸ hq), hmo]
  obtain ⟨h', hlink, hn, hp, hi⟩ :=
    OrderBook.linkBack_ok hhead htail hnew (hpp _ _) hold
  have hstored := hstore (l ++ [p]).head? (some p)
  rw [Contents.set_set] at hstored
  refine ⟨{ b with
    pool := pool
    heap := h'
    levels := LevelTable.store levels a.side a.price
      { level with head := (l ++ [p]).head?, tail := some p }
    orders := b.orders.set a.clientId a.clientOrderId p }, ?_, ?_, rfl⟩
  · simp only [OrderBook.insert, halloc, hopen, ok_bind, hfetch, hlink]
  constructor
  · rw [h.contents_put]
    exact hstored
  · exact h.sorted_put p a.toInfo
  · intro s e he
    rcases mem_put he with he | ⟨rfl, rfl⟩
    · exact h.placed s e he
    · exact ⟨rfl, hvalid⟩
  · exact h.nodup_put hpL
  · intro s e he
    show h'.info e.1 = some e.2
    rw [hi, Heap.info_write]
    rcases mem_put he with he | ⟨-, rfl⟩
    · rw [if_neg (hpL s e he)]
      exact h.info s e he
    · rw [if_pos rfl]
  · refine h.linked_put hpp ?_ ?_ ?_ ?_
    · intro q hq
      rw [hn, Heap.next_write, if_neg hq]
      rfl
    · intro q hq
      rw [hp, Heap.prev_write, if_neg hq, if_neg fun hc => hq hc.1]
    · rw [hn, Heap.next_write, if_pos rfl, if_neg]
      exact fun hlast => hpp _ _ (List.mem_of_getLast? hlast)
    · rw [hp, Heap.prev_write, if_pos rfl]
      show _ = l.getLast?
      by_cases hnil : l = [] <;> simp [hnil]
  · intro s e he
    rw [ObjectPool.live_allocate halloc]
    rcases mem_put he with he | ⟨-, rfl⟩
    · exact Set.mem_insert_of_mem _ (h.live s e he)
    · exact Set.mem_insert _ _
  · exact h.index_put hfresh
  · exact NestedIndex.noEmpty_set h.noEmpty _ _ _

/-- Or the pool has no object left. -/
theorem insert
    (h : LRep b L) {a : OrderArgs} (hvalid : LawfulLevels.Valid Lv a.price)
    (hfresh : ∀ s, ∀ e ∈ L s, e.2.key ≠ a.toInfo.key) :
    b.insert a = .error .poolExhausted ∨
      ∃ b' p, b.insert a = .ok b' ∧ LRep b' (L.put p a.toInfo) ∧
        b'.nextMarketOrderId = b.nextMarketOrderId := by
  cases halloc : ObjectPool.allocate b.pool with
  | none =>
      left
      simp [OrderBook.insert, halloc]
  | some r =>
      obtain ⟨b', hb', hrep, hnext⟩ := h.insert_of_allocate hvalid hfresh halloc
      exact .inr ⟨b', r.1, hb', hrep, hnext⟩

/-- A freshly constructed book holds no orders. -/
theorem init (size : Nat) :
    LRep (OrderBook.init size : OrderBook Lv P) fun _ => [] := by
  constructor
  · exact LawfulLevels.abs_empty
  · exact fun _ => List.Pairwise.nil
  · simp
  · simp
  · simp
  · exact fun _ _ => trivial
  · simp
  · simp [OrderBook.init]
  · exact NestedIndex.noEmpty_empty

/-- The first order of a side is found nowhere else. -/
theorem head_unique
    (h : LRep b L) {s : Side} {p : Ptr} {o : OrderInfo}
    {t : List (Ptr × OrderInfo)} (hs : L s = (p, o) :: t) :
    (∀ e ∈ t, e.1 ≠ p) ∧ ∀ s', s' ≠ s → ∀ e ∈ L s', e.1 ≠ p := by
  constructor
  · rintro e he rfl
    have hnodup := h.nodup s
    rw [hs, List.map_cons] at hnodup
    exact (List.nodup_cons.mp hnodup).1 (List.mem_map.mpr ⟨e, he, rfl⟩)
  · intro s' hne e he hp
    have hmem : (p, o) ∈ L s := by
      rw [hs]
      exact List.mem_cons_self
    exact hne (h.unique he hmem hp).2

theorem drop_head
    (h : LRep b L) {s : Side} {p : Ptr} {o : OrderInfo}
    {t : List (Ptr × OrderInfo)} (hs : L s = (p, o) :: t) :
    L.drop p = Function.update L s t := by
  obtain ⟨ht, hother⟩ := h.head_unique hs
  funext s'
  by_cases hss : s' = s
  · subst hss
    rw [Function.update_self, Located.drop, hs,
      List.filter_cons_of_neg (by simp)]
    exact List.filter_eq_self.mpr fun e he => decide_eq_true (ht e he)
  · rw [Function.update_of_ne hss, Located.drop]
    exact List.filter_eq_self.mpr fun e he =>
      decide_eq_true (hother s' hss e he)

theorem rewrite_head
    (h : LRep b L) {s : Side} {p : Ptr} {o : OrderInfo}
    {t : List (Ptr × OrderInfo)} (hs : L s = (p, o) :: t) (o' : OrderInfo) :
    L.rewrite p o' = Function.update L s ((p, o') :: t) := by
  obtain ⟨ht, hother⟩ := h.head_unique hs
  have hid : ∀ l : List (Ptr × OrderInfo), (∀ e ∈ l, e.1 ≠ p) →
      (l.map fun e => if e.1 = p then (p, o') else e) = l := by
    intro l hl
    refine (List.map_congr_left fun e he => ?_).trans (List.map_id l)
    simp [hl e he]
  funext s'
  by_cases hss : s' = s
  · subst hss
    rw [Function.update_self, Located.rewrite, hs, List.map_cons, if_pos rfl,
      hid t ht]
  · rw [Function.update_of_ne hss, Located.rewrite, hid _ (hother s' hss)]

end LRep

end Representation

end NanoExchange
