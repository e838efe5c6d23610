import NanoExchange.Lib.Outcome

/-!
# Programs that write to a state they never read

A program takes a state `C` along and may fault.  It is `Oblivious` of the
state if whether it faults, what it returns and what it does to the state are
fixed beforehand: it performs a list of actions `D` on whatever state it is
given.  `put` says how a result and a state make up what the program returns.

The rules follow the constructs a program is written with, so that a program
is shown to be oblivious by going through its text.
-/

namespace NanoExchange
namespace Lib

universe u v w

variable {ε : Type u} {α β γ C : Type v} {D : Type w}

/-- The program performs the same actions in every state. -/
def Oblivious (act : C → D → C) (put : α → C → β) (f : C → Except ε β) :
    Prop :=
  (∃ e, ∀ c, f c = .error e) ∨
    ∃ (a : α) (ds : List D), ∀ c, f c = .ok (put a (ds.foldl act c))

namespace Oblivious

variable {act : C → D → C} {put : α → C → β} {f : C → Except ε β}

theorem pure (a : α) :
    Oblivious act put fun c => (Except.ok (put a c) : Except ε β) :=
  .inr ⟨a, [], fun _ => rfl⟩

theorem error (e : ε) :
    Oblivious act put fun _ => (Except.error e : Except ε β) :=
  .inl ⟨e, fun _ => rfl⟩

theorem congr
    {f' : C → Except ε β} (h : Oblivious act put f) (heq : ∀ c, f' c = f c) :
    Oblivious act put f' := by
  obtain rfl : f' = f := funext heq
  exact h

/-- An action, and then the rest of the program. -/
theorem perform (d : D) (h : Oblivious act put f) :
    Oblivious act put fun c => f (act c d) := by
  rcases h with ⟨e, he⟩ | ⟨a, ds, hok⟩
  · exact .inl ⟨e, fun c => he _⟩
  · exact .inr ⟨a, d :: ds, fun c => hok _⟩

/-- A part that does not have the state. -/
theorem lift
    (x : Except ε γ) {g : γ → C → Except ε β}
    (h : ∀ y, Oblivious act put (g y)) :
    Oblivious act put fun c => x >>= fun y => g y c := by
  cases x with
  | error e => exact .error e
  | ok y => exact h y

theorem ite
    (p : Prop) [Decidable p] {f' : C → Except ε β}
    (h : p → Oblivious act put f) (h' : ¬ p → Oblivious act put f') :
    Oblivious act put fun c => if p then f c else f' c := by
  by_cases hp : p
  · simpa only [if_pos hp] using h hp
  · simpa only [if_neg hp] using h' hp

/-- One oblivious program after the other. -/
theorem bind
    {δ η : Type v} {put' : δ → C → η} {g : β → Except ε η}
    (h : Oblivious act put f)
    (hrest : ∀ a, Oblivious act put' fun c => g (put a c)) :
    Oblivious act put' fun c => f c >>= g := by
  rcases h with ⟨e, he⟩ | ⟨a, ds, hok⟩
  · exact .inl ⟨e, fun c => by simp only [he, error_bind]⟩
  · rcases hrest a with ⟨e, he⟩ | ⟨d, ds', hok'⟩
    · exact .inl ⟨e, fun c => by simp only [hok, ok_bind, he]⟩
    · refine .inr ⟨d, ds ++ ds', fun c => ?_⟩
      simp only [hok, ok_bind, hok', List.foldl_append]

end Oblivious

end Lib
end NanoExchange
