import Mathlib.Data.List.Basic
import Mathlib.Algebra.Order.Ring.Nat

/-!
# Replicas of a numbered log

A log changes a state entry by entry: `states k` is the state after its first
`k` entries, and the first `len` of them have been published.  A replica keeps
a state and the number of its last entry.  It is offered entries, in any order
and any number of times; it takes the one after its last and passes over every
other.

A replica that `Follows` the log keeps doing so whatever genuine entries it is
offered (`Follows.offerAll`), and a run of entries that begins no later than
its next one brings it up to the end of the run (`seq_offerAll`).
-/

namespace NanoExchange
namespace Lib

variable {σ φ : Type*}

/-- A state and the number of the last entry that has gone into it. -/
structure Replica (σ : Type*) where
  seq : Nat
  state : σ

namespace Replica

variable (apply : σ → φ → σ)

/-- The replica takes the entry if it is the next one. -/
def offer (r : Replica σ) (e : Nat × φ) : Replica σ :=
  if e.1 = r.seq + 1 then ⟨e.1, apply r.state e.2⟩ else r

/-- Entries are offered one after the other. -/
def offerAll (r : Replica σ) (es : List (Nat × φ)) : Replica σ :=
  es.foldl (offer apply) r

/-- The entry stands in the published part of the log under its number. -/
def Genuine (states : Nat → σ) (len : Nat) (e : Nat × φ) : Prop :=
  ∃ k < len, e.1 = k + 1 ∧ apply (states k) e.2 = states (k + 1)

/-- The replica has the state that belongs to its number. -/
structure Follows (states : Nat → σ) (len : Nat) (r : Replica σ) : Prop where
  published : r.seq ≤ len
  state : r.state = states r.seq

variable {apply} {states : Nat → σ} {len len' : Nat} {r : Replica σ}

@[simp] theorem offerAll_nil : r.offerAll apply [] = r := by
  rfl

@[simp] theorem offerAll_cons (e : Nat × φ) (es : List (Nat × φ)) :
    r.offerAll apply (e :: es) = (r.offer apply e).offerAll apply es := by
  rfl

theorem Genuine.mono
    (hle : len ≤ len') {e : Nat × φ} (h : Genuine apply states len e) :
    Genuine apply states len' e := by
  obtain ⟨k, hk, hseq, happly⟩ := h
  exact ⟨k, by omega, hseq, happly⟩

namespace Follows

theorem mono (hle : len ≤ len') (h : r.Follows states len) :
    r.Follows states len' where
  published := h.published.trans hle
  state := h.state

theorem offer
    (h : r.Follows states len) {e : Nat × φ}
    (he : Genuine apply states len e) :
    (r.offer apply e).Follows states len := by
  obtain ⟨k, hk, hseq, happly⟩ := he
  unfold Replica.offer
  split
  · rename_i hnext
    have hkr : k = r.seq := by omega
    subst hkr
    constructor
    · show e.1 ≤ len
      omega
    · show apply r.state e.2 = states e.1
      rw [h.state, happly, hseq]
  · exact h

/-- **Genuine entries never lead a replica astray.** -/
theorem offerAll
    (h : r.Follows states len) {es : List (Nat × φ)}
    (hes : ∀ e ∈ es, Genuine apply states len e) :
    (r.offerAll apply es).Follows states len := by
  induction es generalizing r with
  | nil => exact h
  | cons e es ih =>
      rw [offerAll_cons]
      refine ih (h.offer (hes e List.mem_cons_self)) fun e' he' => ?_
      exact hes e' (List.mem_cons_of_mem _ he')

end Follows

/-- A replica never goes back. -/
theorem seq_le_offer (e : Nat × φ) : r.seq ≤ (r.offer apply e).seq := by
  unfold offer
  split
  · dsimp only
    omega
  · exact Nat.le_refl _

theorem seq_le_offerAll (es : List (Nat × φ)) :
    r.seq ≤ (r.offerAll apply es).seq := by
  induction es generalizing r with
  | nil => exact Nat.le_refl _
  | cons e es ih => exact (seq_le_offer e).trans ih

/-- Entries that come in their order, with any others in between, are gone
through. -/
theorem le_seq_offerAll
    {k m : Nat} {es : List (Nat × φ)}
    (hes : (List.range' (k + 1) m).Sublist (es.map Prod.fst))
    (hk : k ≤ r.seq) :
    k + m ≤ (r.offerAll apply es).seq := by
  induction es generalizing k m r with
  | nil =>
      have hlen := hes.length_le
      rw [List.length_range', List.map_nil, List.length_nil] at hlen
      rw [offerAll_nil]
      omega
  | cons e es ih =>
      rw [offerAll_cons]
      have hle : r.seq ≤ (r.offer apply e).seq := seq_le_offer e
      rw [List.map_cons] at hes
      rcases List.sublist_cons_iff.mp hes with hrest | ⟨l, hl, hrest⟩
      · exact ih hrest (hk.trans hle)
      · cases m with
        | zero =>
            have hall : (r.offer apply e).seq ≤
                ((r.offer apply e).offerAll apply es).seq := seq_le_offerAll es
            omega
        | succ m =>
            rw [List.range'_succ, List.cons.injEq] at hl
            obtain ⟨hnumber, rfl⟩ := hl
            have htaken : k + 1 ≤ (r.offer apply e).seq := by
              unfold offer at hle ⊢
              split at hle
              · rw [if_pos (by assumption)]
                dsimp only
                omega
              · rw [if_neg (by assumption)]
                omega
            have hrun := ih hrest htaken
            omega

/-- **A run of entries brings a replica up to date**, if it begins no later
than the replica's next entry. -/
theorem seq_offerAll
    {k m : Nat} {es : List (Nat × φ)}
    (hes : es.map Prod.fst = List.range' (k + 1) m) (hk : k ≤ r.seq) :
    (r.offerAll apply es).seq = max r.seq (k + m) := by
  induction m generalizing k r es with
  | zero =>
      obtain rfl : es = [] := by simpa using hes
      rw [offerAll_nil]
      omega
  | succ m ih =>
      cases es with
      | nil => simp at hes
      | cons e es =>
          rw [List.range'_succ, List.map_cons, List.cons.injEq] at hes
          obtain ⟨hseq, hes⟩ := hes
          rw [offerAll_cons]
          by_cases hnext : k = r.seq
          · have hoffer : (r.offer apply e).seq = r.seq + 1 := by
              unfold offer
              rw [if_pos (by omega)]
              dsimp only
              omega
            rw [ih hes (by omega), hoffer]
            omega
          · have hoffer : r.offer apply e = r := by
              unfold offer
              rw [if_neg (by omega)]
            rw [hoffer, ih hes (by omega)]
            omega

end Replica

end Lib
end NanoExchange
