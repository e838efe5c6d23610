import Mathlib.Data.List.Basic

/-!
# Runs that may fault

A program step that may fault is a function into `Except ε`.  A run is the
monadic fold of the step over its inputs; it stops at the first fault.

`run_simulation` is the rule by which a fallible program is compared with a
total one: if every step either stops with the tolerated fault `e` or keeps the
two states related, then so does every run.  The predicate `ok t l` says that
the inputs `l` still to come are admissible from the abstract state `t`.
`Alike` compares two fallible programs, step by step.
-/

namespace NanoExchange
namespace Lib

universe u v w

variable {ε : Type u} {α β : Type v}

@[simp] theorem ok_bind (x : α) (f : α → Except ε β) :
    (Except.ok x >>= f) = f x := by
  rfl

@[simp] theorem error_bind (e : ε) (f : α → Except ε β) :
    ((Except.error e : Except ε α) >>= f) = .error e := by
  rfl

/-- A computation that succeeds has got through its first step. -/
theorem ok_of_bind
    {x : Except ε α} {f : α → Except ε β} {b : β}
    (h : (x >>= f) = .ok b) :
    ∃ a, x = .ok a ∧ f a = .ok b := by
  cases x with
  | error e => cases h
  | ok a => exact ⟨a, rfl, h⟩

/-- What follows a conditional step, taken out of its branches. -/
theorem ite_bind_ok (c : Prop) [Decidable c] (x : Except ε α) (y : α)
    (f : α → Except ε β) :
    (if c then x >>= f else f y) = (if c then x else .ok y) >>= f := by
  split_ifs <;> rfl

/-- What is observed of a result was a result. -/
theorem exists_of_toOption_map
    {x : Except ε α} {f : α → β} {v : β} (h : x.toOption.map f = some v) :
    ∃ s, x = .ok s ∧ f s = v := by
  cases x with
  | error e => cases h
  | ok s => exact ⟨s, rfl, Option.some.inj h⟩

/-- Two computations that fault alike, or give related results. -/
inductive Alike (R : α → β → Prop) : Except ε α → Except ε β → Prop
  | error (e : ε) : Alike R (.error e) (.error e)
  | ok {a : α} {b : β} (h : R a b) : Alike R (.ok a) (.ok b)

namespace Alike

variable {R : α → β → Prop} {x : Except ε α} {y : Except ε β}

/-- Alike steps, and then alike rests. -/
theorem bind
    {γ δ : Type v} {S : γ → δ → Prop} {f : α → Except ε γ}
    {g : β → Except ε δ} (h : Alike R x y)
    (hrest : ∀ a b, R a b → Alike S (f a) (g b)) :
    Alike S (x >>= f) (y >>= g) := by
  cases h with
  | error e => exact .error e
  | ok hab => exact hrest _ _ hab

/-- The same step, and then alike rests. -/
theorem after
    {γ δ : Type v} {S : γ → δ → Prop} {f : α → Except ε γ}
    {g : α → Except ε δ} (x : Except ε α) (h : ∀ a, Alike S (f a) (g a)) :
    Alike S (x >>= f) (x >>= g) := by
  cases x with
  | error e => exact .error e
  | ok a => exact h a

/-- The same step, of which one program goes on to return more. -/
theorem extend {f : α → β} (x : Except ε α) (h : ∀ a, R a (f a)) :
    Alike R x (x >>= fun a => .ok (f a)) := by
  cases x with
  | error e => exact .error e
  | ok a => exact .ok (h a)

theorem ite
    (c : Prop) [Decidable c] {x' : Except ε α} {y' : Except ε β}
    (h : c → Alike R x y) (h' : ¬ c → Alike R x' y') :
    Alike R (if c then x else x') (if c then y else y') := by
  by_cases hc : c
  · simpa only [if_pos hc] using h hc
  · simpa only [if_neg hc] using h' hc

theorem of_error {e : ε} (h : Alike R x (.error e)) : x = .error e := by
  generalize hy : Except.error e = y at h
  cases h with
  | error e' => rw [Except.error.inj hy]
  | ok _ => cases hy

theorem of_ok {b : β} (h : Alike R x (.ok b)) : ∃ a, x = .ok a ∧ R a b := by
  generalize hy : Except.ok b = y at h
  cases h with
  | error _ => cases hy
  | ok hab =>
      obtain rfl := Except.ok.inj hy
      exact ⟨_, rfl, hab⟩

theorem eq {x y : Except ε α} (h : Alike (fun a b => a = b) x y) : x = y := by
  cases h with
  | error e => rfl
  | ok hab => rw [hab]

end Alike

variable {σ : Type v} {τ : Type w} {ι : Type*}

/-- Every prefix of a run without a fault is without a fault. -/
theorem foldlM_append_ok
    {f : σ → ι → Except ε σ} {s s' : σ} {l₁ l₂ : List ι}
    (h : (l₁ ++ l₂).foldlM f s = .ok s') :
    ∃ s₁, l₁.foldlM f s = .ok s₁ ∧ l₂.foldlM f s₁ = .ok s' := by
  rw [List.foldlM_append] at h
  cases h₁ : l₁.foldlM f s with
  | error e =>
      rw [h₁] at h
      cases h
  | ok s₁ =>
      rw [h₁] at h
      exact ⟨s₁, rfl, h⟩

/-- Forward simulation of a fallible run by a total one. -/
theorem run_simulation
    {f : σ → ι → Except ε σ} {g : τ → ι → τ}
    (R : σ → τ → Prop) (ok : τ → List ι → Prop) (e : ε)
    (hstep : ∀ s t i l, R s t → ok t (i :: l) →
      f s i = .error e ∨
        ∃ s', f s i = .ok s' ∧ R s' (g t i) ∧ ok (g t i) l)
    {s : σ} {t : τ} {l : List ι} (hR : R s t) (hok : ok t l) :
    l.foldlM f s = .error e ∨
      ∃ s', l.foldlM f s = .ok s' ∧
        R s' (l.foldl g t) ∧ ok (l.foldl g t) [] := by
  induction l generalizing s t with
  | nil => exact Or.inr ⟨s, rfl, hR, hok⟩
  | cons i l ih =>
      rw [List.foldlM_cons, List.foldl_cons]
      rcases hstep s t i l hR hok with hf | ⟨s', hf, hR', hok'⟩
      · rw [hf]
        exact Or.inl rfl
      · rw [hf, ok_bind]
        exact ih hR' hok'

/-- An invariant under which no step faults holds after every run, and no run
faults. -/
theorem foldlM_invariant
    {f : σ → ι → Except ε σ} (I : σ → Prop)
    (hstep : ∀ s i, I s → ∃ s', f s i = .ok s' ∧ I s')
    {s : σ} (h : I s) (l : List ι) :
    ∃ s', l.foldlM f s = .ok s' ∧ I s' := by
  induction l generalizing s with
  | nil => exact ⟨s, rfl, h⟩
  | cons i l ih =>
      obtain ⟨s₁, hs₁, h₁⟩ := hstep s i h
      rw [List.foldlM_cons, hs₁, ok_bind]
      exact ih h₁

/-- The abstract half of a run alone: an invariant of a total fold whose steps
need the remaining inputs to be admissible. -/
theorem foldl_invariant
    {g : τ → ι → τ} (I : τ → List ι → Prop)
    (hstep : ∀ t i l, I t (i :: l) → I (g t i) l)
    {t : τ} {l : List ι} (h : I t l) :
    I (l.foldl g t) [] := by
  induction l generalizing t with
  | nil => exact h
  | cons i l ih => exact ih (hstep t i l h)

end Lib
end NanoExchange
