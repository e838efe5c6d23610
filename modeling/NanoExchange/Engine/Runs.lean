import NanoExchange.Engine.BookView
import NanoExchange.Engine.RequestRefinement

/-!
# Whole runs of a book

A run is a list of requests processed from an empty book.  The client order
ids that the requests bring must be new (`FreshKeys`), which the gateway's
token manager sees to.

`OrderBook.run_refines` compares a run of a book with the run of its ladder:
unless the pool runs out of objects, the run goes through, the book represents
the ladder, and what it has sent is the ladder's history in its own dialect.
What holds of ladders then holds of books, after every request of every run,
since each prefix of a run is a run.
-/

namespace NanoExchange

open Lib

/-- No pair of client and client order id is brought twice. -/
def FreshKeys (rs : List MEClientRequest) : Prop :=
  (rs.filterMap MEClientRequest.newKey).Nodup

instance (rs : List MEClientRequest) : Decidable (FreshKeys rs) :=
  inferInstanceAs (Decidable (rs.filterMap MEClientRequest.newKey).Nodup)

theorem FreshKeys.perm
    {rs rs' : List MEClientRequest} (h : FreshKeys rs) (hperm : rs.Perm rs') :
    FreshKeys rs' :=
  (hperm.filterMap MEClientRequest.newKey).nodup_iff.mp h

theorem FreshKeys.left
    {rs rs' : List MEClientRequest} (h : FreshKeys (rs ++ rs')) :
    FreshKeys rs :=
  h.sublist ((List.sublist_append_left rs rs').filterMap _)

/-- Fewer than `2^63` requests do not wrap the id counter. -/
theorem length_lt_wordSize
    {rs : List MEClientRequest} (h : rs.length < 2 ^ 63) :
    rs.length + 1 < wordSize := by
  unfold wordSize
  omega

namespace Ladder

/-- The requests to come bring keys that are new to the ladder. -/
structure Admits (A : Ladder) (rs : List MEClientRequest) : Prop where
  keys : FreshKeys rs
  unused : ∀ k ∈ rs.filterMap MEClientRequest.newKey,
    ∀ o ∈ A.orders, o.key ≠ k

/-- The keys of the resting orders after a request. -/
theorem step_keys
    {A : Ladder} (h : A.WF) (n : OrderId) (r : MEClientRequest)
    {o : OrderInfo} (ho : o ∈ (A.step n r).ladder.orders) :
    (∃ o' ∈ A.orders, o'.key = o.key) ∨ r.newKey = some o.key := by
  rcases step_cases h n r with
    ⟨htrims, -⟩ | ⟨A₁, a, htrims, -, heq, -, -, -, hkey, -⟩
  · obtain ⟨o', ho', x, -, -, rfl⟩ := htrims.orders.shrinks o ho
    exact .inl ⟨o', ho', rfl⟩
  · rw [heq, mem_insert_orders] at ho
    rcases ho with rfl | ho
    · exact .inr hkey
    · obtain ⟨o', ho', x, -, -, rfl⟩ := htrims.orders.shrinks o ho
      exact .inl ⟨o', ho', rfl⟩

namespace Admits

variable {A : Ladder} {r : MEClientRequest} {rs : List MEClientRequest}

theorem head (h : A.Admits (r :: rs)) : A.Fresh r := by
  intro k hk
  exact h.unused k (List.mem_filterMap.mpr ⟨r, List.mem_cons_self, hk⟩)

theorem tail (h : A.Admits (r :: rs)) : A.Admits rs where
  keys := h.keys.sublist ((List.sublist_cons_self r rs).filterMap _)
  unused k hk :=
    h.unused k (((List.sublist_cons_self r rs).filterMap _).subset hk)

theorem step
    (h : A.Admits (r :: rs)) (hA : A.WF) (n : OrderId) :
    (A.step n r).ladder.Admits rs := by
  have hkeys := h.keys
  constructor
  · exact h.tail.keys
  · intro k hk o ho hok
    rcases step_keys hA n r ho with ⟨o', ho', hkey⟩ | hkey
    · exact h.tail.unused k hk o' ho' (hkey.trans hok)
    · rw [FreshKeys, List.filterMap_cons_some (hkey.trans (by rw [hok])),
        List.nodup_cons] at hkeys
      exact hkeys.1 hk

theorem empty (h : FreshKeys rs) : Ladder.empty.Admits rs where
  keys := h
  unused := by simp [Ladder.empty, orders]

end Admits

end Ladder

namespace StepResult

/-- The history before any request, with the next match id `n`. -/
def start (n : OrderId) : StepResult :=
  ⟨Ladder.empty, n, []⟩

/-- The history after one more request. -/
def next (t : StepResult) (r : MEClientRequest) : StepResult :=
  { t.ladder.step t.matchIds r with
    events := t.events ++ (t.ladder.step t.matchIds r).events }

end StepResult

namespace Ladder

/-- The run of a ladder: its last state, and the history of events. -/
def run (n : OrderId) (rs : List MEClientRequest) : StepResult :=
  rs.foldl StepResult.next (StepResult.start n)

/-- **Every run leaves a well-formed ladder.** -/
theorem run_wf
    (n : OrderId) {rs : List MEClientRequest} (h : FreshKeys rs) :
    (run n rs).ladder.WF := by
  have hinv := foldl_invariant (g := StepResult.next)
    (fun t l => t.ladder.WF ∧ t.ladder.Admits l) ?_
    (t := StepResult.start n) (l := rs) ⟨WF.empty, Admits.empty h⟩
  · exact hinv.1
  · rintro t r l ⟨hwf, hadm⟩
    exact ⟨step_wf hwf _ hadm.head, hadm.step hwf _⟩

/-- **The invariant rule of a run** in which the id counter cannot wrap: each
step may use that the ladder is well formed, that its ids are apart and that
the request brings a new key. -/
theorem run_induction
    (I : StepResult → Prop) {n : OrderId} (hstart : I (.start n))
    (hstep : ∀ t r, t.ladder.WF → t.ladder.Ids → t.ladder.Fresh r →
      t.ladder.nextMarketOrderId + 1 < wordSize → I t → I (t.next r))
    {rs : List MEClientRequest} (h : FreshKeys rs)
    (hlen : rs.length + 1 < wordSize) :
    I (run n rs) ∧ (run n rs).ladder.Ids := by
  have hinv := foldl_invariant (g := StepResult.next)
    (fun t l => (t.ladder.WF ∧ t.ladder.Admits l) ∧ t.ladder.Ids ∧
      t.ladder.nextMarketOrderId + l.length < wordSize ∧ I t) ?_
    (t := StepResult.start n) (l := rs)
    ⟨⟨WF.empty, Admits.empty h⟩, Ids.empty, ?_, hstart⟩
  · exact ⟨hinv.2.2.2, hinv.2.1⟩
  · rintro t r l ⟨⟨hwf, hadm⟩, hids, hbound, hI⟩
    rw [List.length_cons] at hbound
    have hle := step_next_le hwf t.matchIds r
    have hlt : t.ladder.nextMarketOrderId + 1 < wordSize := by
      lia
    refine ⟨⟨step_wf hwf _ hadm.head, hadm.step hwf _⟩,
      step_ids hwf hids _ r hlt, ?_, hstep t r hwf hids hadm.head hlt hI⟩
    show (t.ladder.step t.matchIds r).ladder.nextMarketOrderId + l.length < _
    lia
  · simp only [StepResult.start, Ladder.empty]
    lia

/-- **Every run in which the id counter cannot wrap keeps the ids apart.** -/
theorem run_ids
    (n : OrderId) {rs : List MEClientRequest} (h : FreshKeys rs)
    (hlen : rs.length + 1 < wordSize) :
    (run n rs).ladder.Ids :=
  (run_induction (fun _ => True) trivial (fun _ _ _ _ _ _ _ => trivial) h
    hlen).2

end Ladder

/-- The channel of an engine after some history. -/
def Channel.sent (d : Dialect) (t : StepResult) : Channel where
  matchIds := t.matchIds
  outputs := t.events.flatMap (Event.outputs d)

/-- The operation succeeds with a result that has the property, unless it
finds the object pool empty. -/
def SucceedsWith {α : Type} (x : Except Fault α) (Q : α → Prop) : Prop :=
  x = .error .poolExhausted ∨ ∃ s, x = .ok s ∧ Q s

theorem SucceedsWith.imp
    {α : Type} {x : Except Fault α} {Q Q' : α → Prop}
    (h : SucceedsWith x Q) (himp : ∀ s, Q s → Q' s) :
    SucceedsWith x Q' := by
  rcases h with h | ⟨s, hs, hQ⟩
  · exact .inl h
  · exact .inr ⟨s, hs, himp s hQ⟩

/-- A run that finds objects in the pool goes through. -/
theorem SucceedsWith.of_ne
    {α : Type} {x : Except Fault α} {Q : α → Prop} (h : SucceedsWith x Q)
    (hx : x ≠ .error .poolExhausted) :
    ∃ s, x = .ok s ∧ Q s :=
  h.resolve_left hx

theorem SucceedsWith.of_ok
    {α : Type} {x : Except Fault α} {s : α} {Q : α → Prop}
    (h : SucceedsWith x Q) (hx : x = .ok s) : Q s := by
  rcases h with hfull | ⟨s', hs', hQ⟩
  · cases hx.symm.trans hfull
  · obtain rfl := Except.ok.inj (hx.symm.trans hs')
    exact hQ

/-- **The invariant rule of a run**: `I` speaks of the state and of the inputs
still to come. -/
theorem SucceedsWith.foldlM
    {σ ι : Type} {f : σ → ι → Except Fault σ} (I : σ → List ι → Prop)
    (hstep : ∀ s i l, I s (i :: l) → SucceedsWith (f s i) fun s' => I s' l)
    {s : σ} {l : List ι} (h : I s l) :
    SucceedsWith (l.foldlM f s) fun s' => I s' [] := by
  induction l generalizing s with
  | nil => exact .inr ⟨s, rfl, h⟩
  | cons i l ih =>
      rw [List.foldlM_cons]
      rcases hstep s i l h with hfull | ⟨s', hs', h'⟩
      · rw [hfull]
        exact .inl rfl
      · rw [hs', ok_bind]
        exact ih h'

theorem ne_error_of_isOk
    {α : Type} {x : Except Fault α} {e : Fault} (h : x.isOk = true) :
    x ≠ .error e := by
  rintro rfl
  cases h

section Runs

variable {Lv : Type} [LevelTable Lv] [LawfulLevels Lv] [BookImpl Lv]
variable [LawfulBook Lv] (P : Type) [ObjectPool P]

/-- **Every run of a book is a run of its ladder.** -/
theorem OrderBook.run_refines
    (size : Nat) (n : OrderId) {rs : List MEClientRequest}
    (hfresh : FreshKeys rs) (hprice : ∀ r ∈ rs, Priced Lv r) :
    SucceedsWith (OrderBook.run Lv P size n rs) fun s =>
      Rep s.1 (Ladder.run n rs).ladder ∧
        s.2 = Channel.sent (LawfulBook.dialect Lv) (Ladder.run n rs) := by
  have hsim := run_simulation
    (f := fun (s : OrderBook Lv P × Channel) r => s.1.processRequest s.2 r)
    (g := StepResult.next)
    (fun s t => Rep s.1 t.ladder ∧
      s.2 = Channel.sent (LawfulBook.dialect Lv) t)
    (fun t l => (t.ladder.WF ∧ t.ladder.Admits l) ∧ ∀ r ∈ l, Priced Lv r)
    Fault.poolExhausted ?_
    (s := (OrderBook.init size, { matchIds := n })) (t := StepResult.start n)
    (l := rs) ⟨⟨_, LRep.init size, fun _ => rfl, rfl⟩, rfl⟩
    ⟨⟨Ladder.WF.empty, Ladder.Admits.empty hfresh⟩, hprice⟩
  · rcases hsim with hfull | ⟨s, hs, hR, -⟩
    · exact .inl hfull
    · exact .inr ⟨s, hs, hR⟩
  · rintro ⟨b, ch⟩ t r l ⟨hrep, rfl⟩ ⟨⟨hwf, hadm⟩, hpriced⟩
    rcases hrep.processRequest hwf (Channel.sent _ t)
        (hpriced r List.mem_cons_self) hadm.head with hfull | ⟨b', hb', hrep'⟩
    · exact .inl hfull
    · refine .inr ⟨_, hb', ⟨hrep', ?_⟩,
        ⟨⟨Ladder.step_wf hwf _ hadm.head, hadm.step hwf _⟩,
          fun r' hr' => hpriced r' (List.mem_cons_of_mem _ hr')⟩⟩
      simp [Channel.report, Channel.sent, StepResult.next]

end Runs

end NanoExchange
