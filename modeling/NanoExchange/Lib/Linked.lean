import Mathlib.Data.List.Induction
import Mathlib.Data.List.Nodup

/-!
# Intrusive doubly linked lists

The cells of an intrusive list carry their own links.  Here the links are two
functions `next` and `prev` on an arbitrary type of cell names, and a list of
cell names is `Linked` when the two functions describe exactly that list, with
null (`none`) at both ends.

The general notion is a segment `Seg`, which has an outer neighbour on either
side.  `seg_append` cuts a segment in two and `Seg.reseat` changes the outer
neighbours; the two list operations used by clients, `Linked.insert` and
`Linked.unlink`, are assembled from these.  `Walk` is following one link
function until null, as a program does.
-/

namespace NanoExchange
namespace Lib

universe u

variable {ι : Type u}

/-- `l` is doubly linked, between the outer neighbours `pv` and `nx`. -/
def Seg (next prev : ι → Option ι) :
    Option ι → List ι → Option ι → Prop
  | _, [], _ => True
  | pv, p :: l, nx =>
      prev p = pv ∧ next p = l.head?.or nx ∧
        Seg next prev (some p) l nx

/-- `l` is a complete doubly linked list. -/
def Linked (next prev : ι → Option ι) (l : List ι) : Prop :=
  Seg next prev none l none

section Segments

variable {next prev next' prev' : ι → Option ι}

theorem getLast?_cons_or
    (p : ι) (l : List ι) (q : Option ι) :
    (p :: l).getLast?.or q = l.getLast?.or (some p) := by
  cases l with
  | nil => simp
  | cons a l =>
      rw [List.getLast?_cons_cons]
      cases h : (a :: l).getLast? with
      | none => simp at h
      | some x => simp

/-- A segment is cut at any point into two segments that face each other. -/
theorem seg_append
    (l₁ l₂ : List ι) (pv nx : Option ι) :
    Seg next prev pv (l₁ ++ l₂) nx ↔
      Seg next prev pv l₁ (l₂.head?.or nx) ∧
        Seg next prev (l₁.getLast?.or pv) l₂ nx := by
  induction l₁ generalizing pv with
  | nil => simp [Seg]
  | cons p l₁ ih =>
      rw [List.cons_append, Seg, Seg, ih, getLast?_cons_or]
      have hhead :
          (l₁ ++ l₂).head?.or nx = l₁.head?.or (l₂.head?.or nx) := by
        cases l₁ <;> simp
      rw [hhead]
      constructor
      · rintro ⟨h1, h2, h3, h4⟩
        exact ⟨⟨h1, h2, h3⟩, h4⟩
      · rintro ⟨⟨h1, h2, h3⟩, h4⟩
        exact ⟨h1, h2, h3, h4⟩

/-- Relink the two ends of a segment to new outer neighbours. -/
theorem Seg.reseat
    [DecidableEq ι] {l : List ι} {pv pv' nx nx' : Option ι}
    (hseg : Seg next prev pv l nx)
    (hnodup : l.Nodup)
    (hnext : ∀ q ∈ l,
      next' q = if l.getLast? = some q then nx' else next q)
    (hprev : ∀ q ∈ l,
      prev' q = if l.head? = some q then pv' else prev q) :
    Seg next' prev' pv' l nx' := by
  induction l generalizing pv pv' with
  | nil => trivial
  | cons p l ih =>
      obtain ⟨hp, hn, htail⟩ := hseg
      have hpl : p ∉ l := (List.nodup_cons.mp hnodup).1
      refine ⟨by simpa using hprev p (by simp), ?_, ?_⟩
      · rw [hnext p (by simp), hn]
        cases l with
        | nil => simp
        | cons a l =>
            have hlast : (p :: a :: l).getLast? ≠ some p := by
              rw [List.getLast?_cons_cons]
              intro h
              exact hpl (List.mem_of_getLast? h)
            rw [if_neg hlast]
            simp
      · refine ih htail (List.nodup_cons.mp hnodup).2 ?_ ?_
        · intro q hq
          rw [hnext q (List.mem_cons_of_mem _ hq)]
          cases l with
          | nil => simp at hq
          | cons a l => rw [List.getLast?_cons_cons]
        · intro q hq
          have hqp : p ≠ q := fun h => hpl (h ▸ hq)
          rw [hprev q (List.mem_cons_of_mem _ hq)]
          cases l with
          | nil => simp at hq
          | cons a l =>
              by_cases haq : a = q
              · subst haq
                simpa [hqp] using htail.1
              · simp [hqp, haq]

/-- Links outside a segment do not matter to it. -/
theorem Seg.congr
    {l : List ι} {pv nx : Option ι}
    (hseg : Seg next prev pv l nx)
    (hnext : ∀ q ∈ l, next' q = next q)
    (hprev : ∀ q ∈ l, prev' q = prev q) :
    Seg next' prev' pv l nx := by
  induction l generalizing pv with
  | nil => trivial
  | cons p l ih =>
      obtain ⟨hp, hn, htail⟩ := hseg
      refine ⟨?_, ?_, ih htail ?_ ?_⟩
      · rw [hprev p (by simp), hp]
      · rw [hnext p (by simp), hn]
      · exact fun q hq => hnext q (List.mem_cons_of_mem _ hq)
      · exact fun q hq => hprev q (List.mem_cons_of_mem _ hq)

theorem Seg.prev_of_head?
    {l : List ι} {pv nx : Option ι} {q : ι}
    (hseg : Seg next prev pv l nx)
    (hq : l.head? = some q) :
    prev q = pv := by
  cases l with
  | nil => simp at hq
  | cons p l =>
      obtain rfl : p = q := by simpa using hq
      exact hseg.1

theorem Seg.next_of_getLast?
    {l : List ι} {pv nx : Option ι} {q : ι}
    (hseg : Seg next prev pv l nx)
    (hq : l.getLast? = some q) :
    next q = nx := by
  obtain ⟨l₀, rfl⟩ := List.getLast?_eq_some_iff.mp hq
  have h := ((seg_append l₀ [q] pv nx).mp hseg).2
  simpa [Seg] using h.2

end Segments

namespace Linked

variable {next prev next' prev' : ι → Option ι}

/-- A list that keeps its links stays linked. -/
theorem congr
    {l : List ι}
    (h : Linked next prev l)
    (hnext : ∀ q ∈ l, next' q = next q)
    (hprev : ∀ q ∈ l, prev' q = prev q) :
    Linked next' prev' l :=
  Seg.congr h hnext hprev

/-- The neighbours of a cell in a linked list. -/
theorem neighbours
    {l₁ l₂ : List ι} {p : ι}
    (h : Linked next prev (l₁ ++ p :: l₂)) :
    prev p = l₁.getLast? ∧ next p = l₂.head? := by
  have h2 := ((seg_append l₁ (p :: l₂) none none).mp h).2
  simpa using And.intro h2.1 h2.2.1

/-- The first cell has no predecessor. -/
theorem prev_of_head?
    {l : List ι} {p : ι}
    (h : Linked next prev l) (hp : l.head? = some p) :
    prev p = none :=
  Seg.prev_of_head? h hp

/-- The two link functions invert each other along a linked list. -/
theorem next_eq_some_iff
    {l : List ι} {p q : ι}
    (h : Linked next prev l) (hp : p ∈ l) (hq : q ∈ l) :
    next p = some q ↔ prev q = some p := by
  constructor
  · intro hnext
    obtain ⟨l₁, l₂, rfl⟩ := List.append_of_mem hp
    rw [h.neighbours.2] at hnext
    obtain ⟨t, rfl⟩ := List.head?_eq_some_iff.mp hnext
    have hcut : Linked next prev ((l₁ ++ [p]) ++ q :: t) := by
      simpa using h
    rw [hcut.neighbours.1, List.getLast?_concat]
  · intro hprev
    obtain ⟨l₁, l₂, rfl⟩ := List.append_of_mem hq
    rw [h.neighbours.1] at hprev
    obtain ⟨t, rfl⟩ := List.getLast?_eq_some_iff.mp hprev
    rw [List.append_assoc] at h
    rw [h.neighbours.2]
    rfl

/-- Put a new cell between two neighbours. -/
theorem insert
    [DecidableEq ι] {l₁ l₂ : List ι} {p : ι}
    (h : Linked next prev (l₁ ++ l₂))
    (hnodup : (l₁ ++ l₂).Nodup)
    (hnext : ∀ q ∈ l₁ ++ l₂,
      next' q = if l₁.getLast? = some q then some p else next q)
    (hprev : ∀ q ∈ l₁ ++ l₂,
      prev' q = if l₂.head? = some q then some p else prev q)
    (hpnext : next' p = l₂.head?)
    (hpprev : prev' p = l₁.getLast?) :
    Linked next' prev' (l₁ ++ p :: l₂) := by
  obtain ⟨h1, h2⟩ := (seg_append l₁ l₂ none none).mp h
  obtain ⟨hn1, hn2, hdisj⟩ := List.nodup_append.mp hnodup
  refine (seg_append l₁ (p :: l₂) none none).mpr ⟨?_, ?_, ?_, ?_⟩
  · refine h1.reseat hn1 ?_ ?_
    · intro q hq
      exact hnext q (List.mem_append_left _ hq)
    · intro q hq
      have hq2 : l₂.head? ≠ some q := fun hh =>
        hdisj q hq q (List.mem_of_mem_head? hh) rfl
      rw [hprev q (List.mem_append_left _ hq), if_neg hq2]
      split_ifs with hh
      · exact h1.prev_of_head? hh
      · rfl
  · simpa using hpprev
  · simpa using hpnext
  · refine h2.reseat hn2 ?_ ?_
    · intro q hq
      have hq1 : l₁.getLast? ≠ some q := fun hh =>
        hdisj q (List.mem_of_getLast? hh) q hq rfl
      rw [hnext q (List.mem_append_right _ hq), if_neg hq1]
      split_ifs with hh
      · exact h2.next_of_getLast? hh
      · rfl
    · intro q hq
      exact hprev q (List.mem_append_right _ hq)

/-- Take a cell out: its two neighbours are linked to each other. -/
theorem unlink
    [DecidableEq ι] {l₁ l₂ : List ι} {p : ι}
    (h : Linked next prev (l₁ ++ p :: l₂))
    (hnodup : (l₁ ++ p :: l₂).Nodup)
    (hnext : ∀ q ∈ l₁ ++ l₂,
      next' q = if l₁.getLast? = some q then l₂.head? else next q)
    (hprev : ∀ q ∈ l₁ ++ l₂,
      prev' q = if l₂.head? = some q then l₁.getLast? else prev q) :
    Linked next' prev' (l₁ ++ l₂) := by
  obtain ⟨h1, -, -, h2⟩ := (seg_append l₁ (p :: l₂) none none).mp h
  obtain ⟨hn1, hn2, hdisj⟩ := List.nodup_append.mp hnodup
  refine (seg_append l₁ l₂ none none).mpr ⟨?_, ?_⟩
  · refine h1.reseat hn1 ?_ ?_
    · intro q hq
      simpa using hnext q (List.mem_append_left _ hq)
    · intro q hq
      have hq2 : l₂.head? ≠ some q := fun hh =>
        hdisj q hq q (List.mem_cons_of_mem _ (List.mem_of_mem_head? hh)) rfl
      rw [hprev q (List.mem_append_left _ hq), if_neg hq2]
      split_ifs with hh
      · exact h1.prev_of_head? hh
      · rfl
  · refine h2.reseat (List.nodup_cons.mp hn2).2 ?_ ?_
    · intro q hq
      have hq1 : l₁.getLast? ≠ some q := fun hh =>
        hdisj q (List.mem_of_getLast? hh) q (List.mem_cons_of_mem _ hq) rfl
      rw [hnext q (List.mem_append_right _ hq), if_neg hq1]
      split_ifs with hh
      · exact h2.next_of_getLast? hh
      · rfl
    · intro q hq
      simpa using hprev q (List.mem_append_right _ hq)

end Linked

/--
Following one link from `start` until null visits exactly the cells `l`.
`step p` is `none` when the cell `p` cannot be read at all.
-/
inductive Walk (step : ι → Option (Option ι)) : Option ι → List ι → Prop
  | done : Walk step none []
  | visit {p : ι} {q : Option ι} {l : List ι}
      (hp : step p = some q) (hwalk : Walk step q l) :
      Walk step (some p) (p :: l)

namespace Walk

variable {step : ι → Option (Option ι)}

/-- A walk is determined by its starting point. -/
theorem unique
    {start : Option ι} {l l' : List ι}
    (h : Walk step start l) (h' : Walk step start l') :
    l = l' := by
  induction h generalizing l' with
  | done =>
      cases h'
      rfl
  | visit hp _ ih =>
      cases h' with
      | visit hp' hwalk' =>
          obtain rfl := Option.some.inj (hp.symm.trans hp')
          rw [ih hwalk']

theorem of_seg
    {next prev : ι → Option ι} {l : List ι} {pv : Option ι}
    (h : Seg next prev pv l none)
    (hstep : ∀ p ∈ l, step p = some (next p)) :
    Walk step l.head? l := by
  induction l generalizing pv with
  | nil => exact .done
  | cons p l ih =>
      obtain ⟨-, hn, htail⟩ := h
      refine .visit (hstep p (by simp)) ?_
      rw [hn]
      simpa using ih htail fun q hq => hstep q (List.mem_cons_of_mem _ hq)

/-- Walking forward from the head. -/
theorem forward
    {next prev : ι → Option ι} {l : List ι}
    (h : Linked next prev l)
    (hstep : ∀ p ∈ l, step p = some (next p)) :
    Walk step l.head? l :=
  of_seg h hstep

/-- Walking backward from the tail meets the cells in the opposite order. -/
theorem backward
    {next prev : ι → Option ι} {l : List ι} {nx : Option ι}
    (h : Seg next prev none l nx)
    (hstep : ∀ p ∈ l, step p = some (prev p)) :
    Walk step l.getLast? l.reverse := by
  induction l using List.reverseRecOn generalizing nx with
  | nil => exact .done
  | append_singleton l p ih =>
      obtain ⟨h1, h2⟩ := (seg_append l [p] none nx).mp h
      rw [List.getLast?_concat, List.reverse_append]
      refine .visit (hstep p (by simp)) ?_
      rw [h2.1, Option.or_none]
      exact ih h1 fun q hq => hstep q (List.mem_append_left _ hq)

end Walk

end Lib
end NanoExchange
