import NanoExchange.Engine.Ladder

/-!
# Facts about a sweep

The four ways a sweep can go on at the head of its list, and what follows by
induction: what it leaves (`sweep_cases`), that what it takes and what it
returns add up, that sweeping level by level is sweeping at once
(`sweep_level`), and which orders are filled (`Reached`).
-/

namespace NanoExchange

open Lib

variable {R : Price → Prop} [DecidablePred R] {a : OrderArgs}

theorem sweep_nil (n : OrderId) (q : Quantity) :
    sweep R a n q [] = ⟨[], [], q, n⟩ := by
  rfl

theorem sweep_zero (n : OrderId) (l : List OrderInfo) :
    sweep R a n 0 l = ⟨[], l, 0, n⟩ := by
  cases l <;> simp [sweep]

theorem sweep_stop
    (n : OrderId) (q : Quantity) {o : OrderInfo} (l : List OrderInfo)
    (ho : ¬ R o.price) :
    sweep R a n q (o :: l) = ⟨[], o :: l, q, n⟩ := by
  simp [sweep, ho]

/-- Nothing is within reach. -/
theorem sweep_of_clear
    (n : OrderId) (q : Quantity) {l : List OrderInfo}
    (hl : ∀ o ∈ l, ¬ R o.price) :
    sweep R a n q l = ⟨[], l, q, n⟩ := by
  cases l with
  | nil => rfl
  | cons o l => exact sweep_stop n q l (hl o List.mem_cons_self)

/-- The head order is filled completely. -/
theorem sweep_full
    {n : OrderId} {q : Quantity} {o : OrderInfo} {l : List OrderInfo}
    (hq : q ≠ 0) (ho : R o.price) (hle : o.remainingQuantity ≤ q) :
    sweep R a n q (o :: l) =
      let r := sweep R a ((n + 1) % wordSize) (q - o.remainingQuantity) l
      { r with
        fills := .filled a (o.withRemaining 0) o.remainingQuantity
          (q - o.remainingQuantity) n :: r.fills } := by
  simp [sweep, hq, ho, hle]

/-- The head order takes all that is wanted, and stays. -/
theorem sweep_part
    {n : OrderId} {q : Quantity} {o : OrderInfo} {l : List OrderInfo}
    (hq : q ≠ 0) (ho : R o.price) (hlt : ¬ o.remainingQuantity ≤ q) :
    sweep R a n q (o :: l) =
      ⟨[.filled a (o.withRemaining (o.remainingQuantity - q)) q 0 n],
        o.withRemaining (o.remainingQuantity - q) :: l, 0,
        (n + 1) % wordSize⟩ := by
  simp [sweep, hq, ho, hlt]

/-- **The invariant rule of a sweep.**  What holds of the fills so far, of the
quantity still wanted and of the orders not yet met, and is kept by each fill,
holds at the end. -/
theorem sweep_invariant
    (I : List Event → Quantity → List OrderInfo → Prop)
    (hfull : ∀ es n q o l, q ≠ 0 → o.remainingQuantity ≤ q →
      I es q (o :: l) →
      I (es ++ [.filled a (o.withRemaining 0) o.remainingQuantity
        (q - o.remainingQuantity) n]) (q - o.remainingQuantity) l)
    (hpart : ∀ es n q o l, q ≠ 0 → q < o.remainingQuantity →
      I es q (o :: l) →
      I (es ++ [.filled a (o.withRemaining (o.remainingQuantity - q)) q 0 n])
        0 (o.withRemaining (o.remainingQuantity - q) :: l))
    (es : List Event) (n : OrderId) {q : Quantity} {l : List OrderInfo}
    (h : I es q l) :
    I (es ++ (sweep R a n q l).fills) (sweep R a n q l).remaining
      (sweep R a n q l).resting := by
  induction l generalizing es n q with
  | nil => simpa [sweep] using h
  | cons o l ih =>
      by_cases hq : q = 0
      · subst hq
        simpa [sweep_zero] using h
      by_cases ho : R o.price
      · by_cases hle : o.remainingQuantity ≤ q
        · rw [sweep_full hq ho hle]
          have hrest := ih _ ((n + 1) % wordSize) (hfull es n q o l hq hle h)
          rw [List.append_assoc] at hrest
          exact hrest
        · rw [sweep_part hq ho hle]
          exact hpart es n q o l hq (not_le.mp hle) h
      · rw [sweep_stop n q l ho]
        simpa using h

theorem sweep_remaining_le
    (n : OrderId) (q : Quantity) (l : List OrderInfo) :
    (sweep R a n q l).remaining ≤ q := by
  induction l generalizing n q with
  | nil => simp [sweep]
  | cons o l ih =>
      by_cases hq : q = 0
      · simp [sweep, hq]
      by_cases ho : R o.price
      · by_cases hle : o.remainingQuantity ≤ q
        · rw [sweep_full hq ho hle]
          exact (ih _ _).trans (Nat.sub_le _ _)
        · rw [sweep_part hq ho hle]
          exact Nat.zero_le _
      · rw [sweep_stop n q l ho]

/-- A sweep that can fill its first order does. -/
theorem sweep_remaining_lt
    {q : Quantity} {o : OrderInfo} (hq : q ≠ 0) (ho : R o.price)
    (hpos : 0 < o.remainingQuantity) (n : OrderId) (l : List OrderInfo) :
    (sweep R a n q (o :: l)).remaining < q := by
  by_cases hle : o.remainingQuantity ≤ q
  · rw [sweep_full hq ho hle]
    have hrest := sweep_remaining_le (R := R) (a := a) ((n + 1) % wordSize)
      (q - o.remainingQuantity) l
    show (sweep R a _ (q - o.remainingQuantity) l).remaining < q
    lia
  · rw [sweep_part hq ho hle]
    exact Nat.pos_of_ne_zero hq

/-- Sweeping one price that is within reach, and then everything within reach,
is sweeping everything within reach. -/
theorem sweep_level
    {k : Price} (hk : R k) (n : OrderId) (q : Quantity)
    (l : List OrderInfo) :
    sweep R a n q l =
      let r := sweep (· = k) a n q l
      let r' := sweep R a r.matchIds r.remaining r.resting
      { r' with fills := r.fills ++ r'.fills } := by
  induction l generalizing n q with
  | nil => simp [sweep]
  | cons o l ih =>
      by_cases hq : q = 0
      · simp [hq, sweep_zero]
      by_cases ho : o.price = k
      · have hreach : R o.price := ho ▸ hk
        by_cases hle : o.remainingQuantity ≤ q
        · rw [sweep_full hq hreach hle,
            sweep_full (R := (· = k)) hq ho hle, ih]
          simp
        · rw [sweep_part hq hreach hle,
            sweep_part (R := (· = k)) hq ho hle]
          simp [sweep_zero]
      · rw [sweep_stop (R := (· = k)) n q l ho]
        simp

/-- **What a sweep leaves**: a tail of the list, of which at most the first
order has lost some of its shares. -/
theorem sweep_cases (n : OrderId) (q : Quantity) (l : List OrderInfo) :
    ∃ l₁ l₂, l = l₁ ++ l₂ ∧
      ((sweep R a n q l).resting = l₂ ∨
        ∃ o t x, l₂ = o :: t ∧ 0 < x ∧ x < o.remainingQuantity ∧
          (sweep R a n q l).resting = o.withRemaining x :: t) := by
  induction l generalizing n q with
  | nil => exact ⟨[], [], rfl, .inl rfl⟩
  | cons o l ih =>
      by_cases hq : q = 0
      · subst hq
        exact ⟨[], o :: l, rfl, .inl (by rw [sweep_zero])⟩
      by_cases ho : R o.price
      · by_cases hle : o.remainingQuantity ≤ q
        · obtain ⟨l₁, l₂, hl, hrest⟩ :=
            ih ((n + 1) % wordSize) (q - o.remainingQuantity)
          refine ⟨o :: l₁, l₂, by rw [hl, List.cons_append], ?_⟩
          rw [sweep_full hq ho hle]
          exact hrest
        · refine ⟨[], o :: l, rfl,
            .inr ⟨o, l, o.remainingQuantity - q, rfl, ?_, ?_, ?_⟩⟩
          · lia
          · lia
          · rw [sweep_part hq ho hle]
      · exact ⟨[], o :: l, rfl, .inl (by rw [sweep_stop n q l ho])⟩

/-- A sweep that still wants shares has stopped at a price out of reach, or at
the end of the list. -/
theorem sweep_exhausts
    {n : OrderId} {q : Quantity} {l : List OrderInfo}
    (hrem : (sweep R a n q l).remaining ≠ 0) {o : OrderInfo}
    {t : List OrderInfo} (ht : (sweep R a n q l).resting = o :: t) :
    ¬ R o.price := by
  induction l generalizing n q with
  | nil => simp [sweep] at ht
  | cons o' l ih =>
      by_cases hq : q = 0
      · simp [hq, sweep_zero] at hrem
      by_cases ho : R o'.price
      · by_cases hle : o'.remainingQuantity ≤ q
        · rw [sweep_full hq ho hle] at hrem ht
          exact ih hrem ht
        · rw [sweep_part hq ho hle] at hrem
          exact absurd rfl hrem
      · rw [sweep_stop n q l ho] at ht
        obtain ⟨rfl, -⟩ := List.cons.inj ht
        exact ho

/-- A sweep that wants `q` shares comes as far as the order `o`. -/
def Reached (R : Price → Prop) (q : Quantity) (l : List OrderInfo)
    (o : OrderInfo) : Prop :=
  ∃ pre post, l = pre ++ o :: post ∧ R o.price ∧
    (pre.map OrderInfo.remainingQuantity).sum < q

omit [DecidablePred R] in
theorem Reached.head
    {q : Quantity} {o : OrderInfo} (hq : q ≠ 0) (ho : R o.price)
    (l : List OrderInfo) :
    Reached R q (o :: l) o :=
  ⟨[], l, rfl, ho, Nat.pos_of_ne_zero hq⟩

omit [DecidablePred R] in
theorem Reached.tail
    {q : Quantity} {o x : OrderInfo} {l : List OrderInfo}
    (h : Reached R (q - x.remainingQuantity) l o) :
    Reached R q (x :: l) o := by
  obtain ⟨pre, post, rfl, ho, hlt⟩ := h
  refine ⟨x :: pre, post, rfl, ho, ?_⟩
  rw [List.map_cons, List.sum_cons]
  exact Nat.add_comm _ _ ▸ Nat.add_lt_of_lt_sub hlt

omit [DecidablePred R] in
/-- An order is reached at the head of the list or behind it. -/
theorem Reached.cases
    {q : Quantity} {o x : OrderInfo} {l : List OrderInfo}
    (h : Reached R q (x :: l) o) :
    o = x ∨ Reached R (q - x.remainingQuantity) l o := by
  obtain ⟨pre, post, heq, ho, hlt⟩ := h
  cases pre with
  | nil => exact .inl (List.cons.inj heq).1.symm
  | cons y pre =>
      obtain ⟨rfl, rfl⟩ := List.cons.inj heq
      rw [List.map_cons, List.sum_cons] at hlt
      exact .inr ⟨pre, post, rfl, ho,
        Nat.lt_sub_of_add_lt (Nat.add_comm _ _ ▸ hlt)⟩

omit [DecidablePred R] in
theorem Reached.mem
    {q : Quantity} {o : OrderInfo} {l : List OrderInfo}
    (h : Reached R q l o) :
    o ∈ l := by
  obtain ⟨pre, post, rfl, -⟩ := h
  exact List.mem_append_right _ List.mem_cons_self

/-- A fill is of an order that has been reached. -/
theorem reached_of_fill
    {n : OrderId} {q : Quantity} {l : List OrderInfo} {e : Event}
    (he : e ∈ (sweep R a n q l).fills) :
    ∃ o, Reached R q l o ∧ ∃ x fill remaining matchId,
      e = .filled a (o.withRemaining x) fill remaining matchId := by
  induction l generalizing n q with
  | nil => cases he
  | cons o l ih =>
      by_cases hq : q = 0
      · simp [hq, sweep_zero] at he
      by_cases ho : R o.price
      · by_cases hle : o.remainingQuantity ≤ q
        · rw [sweep_full hq ho hle] at he
          rcases List.mem_cons.mp he with rfl | he
          · exact ⟨o, .head hq ho l, _, _, _, _, rfl⟩
          · obtain ⟨o', hreached, hfill⟩ := ih he
            exact ⟨o', hreached.tail, hfill⟩
        · rw [sweep_part hq ho hle] at he
          obtain rfl := List.mem_singleton.mp he
          exact ⟨o, .head hq ho l, _, _, _, _, rfl⟩
      · simp [sweep_stop n q l ho] at he

/-- The events of a sweep are fills of the incoming order. -/
theorem mem_sweep_fills
    {n : OrderId} {q : Quantity} {l : List OrderInfo} {e : Event}
    (he : e ∈ (sweep R a n q l).fills) :
    ∃ o fill remaining matchId, e = .filled a o fill remaining matchId := by
  obtain ⟨o, -, x, fill, remaining, matchId, rfl⟩ := reached_of_fill he
  exact ⟨_, fill, remaining, matchId, rfl⟩

/-- Each order that is left was there, perhaps with more shares. -/
theorem mem_sweep_resting
    {n : OrderId} {q : Quantity} {l : List OrderInfo} {o : OrderInfo}
    (ho : o ∈ (sweep R a n q l).resting) :
    o ∈ l ∨ ∃ o' ∈ l, ∃ x, 0 < x ∧ x < o'.remainingQuantity ∧
      o = o'.withRemaining x := by
  obtain ⟨l₁, l₂, rfl, hrest | ⟨o₁, t, x, rfl, hpos, hlt, hrest⟩⟩ :=
    sweep_cases (R := R) (a := a) n q l
  · rw [hrest] at ho
    exact .inl (List.mem_append_right _ ho)
  · rw [hrest] at ho
    rcases List.mem_cons.mp ho with rfl | ho
    · exact .inr ⟨o₁, by simp, x, hpos, hlt, rfl⟩
    · exact .inl (by simp [ho])

/-- Seen through anything that does not read the remaining quantity, a sweep
takes orders off the front. -/
theorem map_sweep_resting
    {β : Type*} (f : OrderInfo → β) (hf : ∀ o x, f (o.withRemaining x) = f o)
    (n : OrderId) (q : Quantity) (l : List OrderInfo) :
    (sweep R a n q l).resting.map f <:+ l.map f := by
  obtain ⟨l₁, l₂, rfl, hrest | ⟨o₁, t, x, rfl, -, -, hrest⟩⟩ :=
    sweep_cases (R := R) (a := a) n q l
  · rw [hrest, List.map_append]
    exact List.suffix_append _ _
  · rw [hrest, List.map_append, List.map_cons, hf, List.map_cons]
    exact List.suffix_append _ _

/-- If what is within reach comes first, a sweep takes all of it that is
wanted. -/
theorem sweep_remaining_eq
    {n : OrderId} {q : Quantity} {l : List OrderInfo}
    (hl : l.Pairwise fun x y => R y.price → R x.price) :
    (sweep R a n q l).remaining =
      q - ((l.filter fun o => R o.price).map
        OrderInfo.remainingQuantity).sum := by
  induction l generalizing n q with
  | nil => simp [sweep]
  | cons o l ih =>
      obtain ⟨hfirst, htail⟩ := List.pairwise_cons.mp hl
      by_cases hq : q = 0
      · simp [hq, sweep_zero]
      by_cases ho : R o.price
      · rw [List.filter_cons_of_pos (by simpa using ho), List.map_cons,
          List.sum_cons]
        by_cases hle : o.remainingQuantity ≤ q
        · rw [sweep_full hq ho hle]
          show (sweep R a _ (q - o.remainingQuantity) l).remaining = _
          rw [ih htail]
          lia
        · rw [sweep_part hq ho hle]
          show 0 = _
          lia
      · have hnone : ((o :: l).filter fun o => R o.price) = [] := by
          refine List.filter_eq_nil_iff.mpr fun x hx hRx => ?_
          rcases List.mem_cons.mp hx with rfl | hx
          · exact ho (of_decide_eq_true hRx)
          · exact ho (hfirst x hx (of_decide_eq_true hRx))
        rw [hnone, sweep_stop n q l ho]
        simp

/-- A sweep fills nothing exactly when nothing is wanted or nothing is within
reach. -/
theorem sweep_fills_eq_nil
    {n : OrderId} {q : Quantity} {l : List OrderInfo}
    (hl : l.Pairwise fun x y => R y.price → R x.price) :
    (sweep R a n q l).fills = [] ↔ q = 0 ∨ ∀ o ∈ l, ¬ R o.price := by
  cases l with
  | nil => simp [sweep]
  | cons o l =>
      have hfirst := (List.pairwise_cons.mp hl).1
      by_cases hq : q = 0
      · simp [hq, sweep_zero]
      by_cases ho : R o.price
      · have hsome : (sweep R a n q (o :: l)).fills ≠ [] := by
          by_cases hle : o.remainingQuantity ≤ q
          · rw [sweep_full hq ho hle]
            simp
          · rw [sweep_part hq ho hle]
            simp
        constructor
        · exact fun hnil => absurd hnil hsome
        · rintro (hq' | hnone)
          · exact absurd hq' hq
          · exact absurd ho (hnone o List.mem_cons_self)
      · rw [sweep_stop n q l ho]
        refine iff_of_true rfl (.inr fun x hx hRx => ?_)
        rcases List.mem_cons.mp hx with rfl | hx
        · exact ho hRx
        · exact ho (hfirst x hx hRx)

theorem sweep_resting_pos
    {n : OrderId} {q : Quantity} {l : List OrderInfo}
    (hl : ∀ o ∈ l, 0 < o.remainingQuantity) :
    ∀ o ∈ (sweep R a n q l).resting, 0 < o.remainingQuantity := by
  intro o ho
  rcases mem_sweep_resting ho with ho | ⟨o', -, x, hx, -, rfl⟩
  · exact hl o ho
  · exact hx

/-- An order that is reached is filled, if what is within reach comes first. -/
theorem fill_of_reached
    {n : OrderId} {q : Quantity} {l : List OrderInfo} {o : OrderInfo}
    (hl : l.Pairwise fun x y => R y.price → R x.price)
    (h : Reached R q l o) :
    ∃ x fill remaining matchId,
      .filled a (o.withRemaining x) fill remaining matchId ∈
        (sweep R a n q l).fills := by
  induction l generalizing n q with
  | nil =>
      obtain ⟨pre, post, heq, -⟩ := h
      simp at heq
  | cons y l ih =>
      obtain ⟨hfirst, htail⟩ := List.pairwise_cons.mp hl
      have hq : q ≠ 0 := by
        obtain ⟨pre, post, -, -, hlt⟩ := h
        exact Nat.ne_of_gt (Nat.zero_lt_of_lt hlt)
      have hmem := h.mem
      have ho : R o.price := by
        obtain ⟨pre, post, -, ho, -⟩ := h
        exact ho
      have hy : R y.price := by
        rcases List.mem_cons.mp hmem with rfl | hmem
        · exact ho
        · exact hfirst o hmem ho
      rcases h.cases with rfl | hbehind
      · by_cases hle : o.remainingQuantity ≤ q
        · rw [sweep_full hq hy hle]
          exact ⟨_, _, _, _, List.mem_cons_self⟩
        · rw [sweep_part hq hy hle]
          exact ⟨_, _, _, _, List.mem_singleton_self _⟩
      · have hle : y.remainingQuantity ≤ q := by
          obtain ⟨pre, post, -, -, hlt⟩ := hbehind
          exact Nat.le_of_lt (Nat.lt_of_sub_pos (Nat.zero_lt_of_lt hlt))
        obtain ⟨x, fill, remaining, matchId, hfill⟩ :=
          ih (n := (n + 1) % wordSize) htail hbehind
        rw [sweep_full hq hy hle]
        exact ⟨x, fill, remaining, matchId, List.mem_cons_of_mem _ hfill⟩

end NanoExchange
