import Mathlib.Logic.Relation

/-!
# Runs of a partial step function

A system of threads is a step function on its states: `step s a` is the state
after action `a`, and `none` where `a` is not enabled.  `Steps step ok` relates
two states if a run leads from one to the other whose steps all meet `ok`.
-/

namespace NanoExchange.Lib

variable {σ τ α β : Type*}

/-- A run leads from the first state to the second, and each of its steps meets
the condition `ok`. -/
def Steps (step : σ → α → Option σ) (ok : σ → α → Prop) : σ → σ → Prop :=
  Relation.ReflTransGen fun s s' => ∃ a, ok s a ∧ step s a = some s'

namespace Steps

variable {step : σ → α → Option σ} {ok : σ → α → Prop} {s s' s'' : σ}

theorem refl (s : σ) : Steps step ok s s :=
  Relation.ReflTransGen.refl

theorem trans
    (h : Steps step ok s s') (h' : Steps step ok s' s'') :
    Steps step ok s s'' :=
  Relation.ReflTransGen.trans h h'

theorem head
    {a : α} (hok : ok s a) (hstep : step s a = some s')
    (h : Steps step ok s' s'') :
    Steps step ok s s'' :=
  Relation.ReflTransGen.head ⟨a, hok, hstep⟩ h

theorem single {a : α} (hok : ok s a) (hstep : step s a = some s') :
    Steps step ok s s' :=
  head hok hstep (refl s')

/-- **The invariant rule.** -/
theorem invariant
    (I : σ → Prop)
    (hI : ∀ s a s', ok s a → I s → step s a = some s' → I s')
    (h : Steps step ok s s') (hs : I s) :
    I s' := by
  induction h with
  | refl => exact hs
  | tail _ hlast ih =>
      obtain ⟨a, hok, hstep⟩ := hlast
      exact hI _ a _ hok ih hstep

/-- **The lifting rule**: a run of one component is a run of the system. -/
theorem lift
    {step' : τ → β → Option τ} {ok' : τ → β → Prop} (g : σ → τ)
    (hg : ∀ s a s', ok s a → step s a = some s' →
      ∃ b, ok' (g s) b ∧ step' (g s) b = some (g s'))
    (h : Steps step ok s s') :
    Steps step' ok' (g s) (g s') := by
  refine Relation.ReflTransGen.lift g ?_ _ _ h
  rintro s s' ⟨a, hok, hstep⟩
  exact hg s a s' hok hstep

/-- **The progress rule**: if from every state that is not yet a goal a run
leads to one with a smaller measure, a run leads to a goal. -/
theorem progress
    (I goal : σ → Prop) (μ : σ → Nat)
    (hstep : ∀ s, I s → ¬ goal s →
      ∃ s', Steps step ok s s' ∧ I s' ∧ μ s' < μ s)
    (hs : I s) :
    ∃ s', Steps step ok s s' ∧ I s' ∧ goal s' := by
  induction hn : μ s using Nat.strongRecOn generalizing s with
  | _ n ih =>
      by_cases hgoal : goal s
      · exact ⟨s, refl s, hs, hgoal⟩
      · obtain ⟨s₁, hrun₁, hs₁, hlt⟩ := hstep s hs hgoal
        obtain ⟨s₂, hrun₂, hs₂, hgoal₂⟩ := ih (μ s₁) (hn ▸ hlt) hs₁ rfl
        exact ⟨s₂, hrun₁.trans hrun₂, hs₂, hgoal₂⟩

/-- Take the actions, as long as they are enabled and meet the condition. -/
def follow (step : σ → α → Option σ) (ok : σ → α → Prop)
    [∀ s a, Decidable (ok s a)] (s : σ) (actions : List α) : Option σ :=
  actions.foldlM (fun s a => if ok s a then step s a else none) s

theorem of_follow
    [∀ s a, Decidable (ok s a)] (actions : List α)
    (h : follow step ok s actions = some s') :
    Steps step ok s s' := by
  induction actions generalizing s with
  | nil => exact Option.some.inj h ▸ refl s
  | cons a actions ih =>
      obtain ⟨t, hstep, hrest⟩ := Option.bind_eq_some_iff.mp h
      dsimp only at hstep
      split at hstep
      · rename_i hok
        exact head hok hstep (ih hrest)
      · cases hstep

end Steps

end NanoExchange.Lib
