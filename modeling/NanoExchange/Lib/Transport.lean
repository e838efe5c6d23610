import Mathlib.Algebra.Order.Ring.Nat
import Mathlib.Data.List.Infix

/-!
# Partial reads and writes

A read from a stream socket gives some of what has arrived, a write takes some
of what it is given, and either can fail.  What happens on a socket is told by
two scripts: the chunks that the reads find, an empty chunk for a read that
fails, and the sizes of what the writes take, 0 for a write that fails.  When a
script is at its end every further call fails.

`recvExact` and `sendAll` are the loops that read a given number of elements
and write all of some data.  What they read depends only on what has arrived
before the first failure (`recvExact_eq_some_iff`), and what they write is the
data up to some point (`sendAll_prefix`).
-/

namespace NanoExchange
namespace Lib

variable {α : Type*}

/-- One read of at most `size` elements, and the chunks that are left. -/
def recv (size : Nat) : List (List α) → Option (List α × List (List α))
  | [] => none
  | [] :: _ => none
  | (a :: chunk) :: rest =>
      some ((a :: chunk).take size,
        if (a :: chunk).length ≤ size then rest
        else (a :: chunk).drop size :: rest)

/-- The loop of `recvExact`, with a bound on its reads. -/
def recvLoop : Nat → Nat → List (List α) → List α →
    Option (List α × List (List α))
  | _, 0, arrivals, got => some (got, arrivals)
  | 0, _ + 1, _, _ => none
  | fuel + 1, size + 1, arrivals, got =>
      match recv (size + 1) arrivals with
      | none => none
      | some (part, arrivals) =>
          recvLoop fuel (size + 1 - part.length) arrivals (got ++ part)

/-- Read exactly `size` elements; each read gives one at least. -/
def recvExact (size : Nat) (arrivals : List (List α)) :
    Option (List α × List (List α)) :=
  recvLoop size size arrivals []

/-- What arrives before the first failure. -/
def ready (arrivals : List (List α)) : List α :=
  (arrivals.takeWhile fun chunk => chunk ≠ []).flatten

@[simp] theorem ready_nil : ready ([] : List (List α)) = [] := by
  rfl

@[simp] theorem ready_empty (rest : List (List α)) :
    ready ([] :: rest) = [] := by
  simp [ready]

@[simp] theorem ready_cons (a : α) (chunk : List α) (rest : List (List α)) :
    ready ((a :: chunk) :: rest) = (a :: chunk) ++ ready rest := by
  simp [ready]

/-- A read gives the first elements of what is ready. -/
theorem recv_cases (size : Nat) (arrivals : List (List α)) :
    recv (size + 1) arrivals = none ∧ ready arrivals = [] ∨
      ∃ part rest, recv (size + 1) arrivals = some (part, rest) ∧
        part ≠ [] ∧ part.length ≤ size + 1 ∧
        ready arrivals = part ++ ready rest := by
  cases arrivals with
  | nil => exact .inl ⟨rfl, rfl⟩
  | cons chunk rest =>
      cases chunk with
      | nil => exact .inl ⟨rfl, ready_empty rest⟩
      | cons a chunk =>
          refine .inr ⟨_, _, rfl, by simp, List.length_take_le _ _, ?_⟩
          rw [ready_cons]
          split
          · rename_i hle
            rw [List.take_of_length_le hle]
          · rename_i hlt
            have hdrop : (a :: chunk).drop (size + 1) ≠ [] := by
              rw [ne_eq, List.drop_eq_nil_iff]
              exact hlt
            obtain ⟨b, left, hleft⟩ := List.exists_cons_of_ne_nil hdrop
            rw [hleft, ready_cons, ← hleft, ← List.append_assoc,
              List.take_append_drop]

/-- The loop reads the first elements of what is ready, or fails. -/
theorem recvLoop_eq
    {fuel size : Nat} (hfuel : size ≤ fuel) (arrivals : List (List α))
    (got : List α) :
    recvLoop fuel size arrivals got = none ∧ (ready arrivals).length < size ∨
      ∃ rest, recvLoop fuel size arrivals got =
          some (got ++ (ready arrivals).take size, rest) ∧
        size ≤ (ready arrivals).length ∧
        ready rest = (ready arrivals).drop size := by
  induction fuel generalizing size arrivals got with
  | zero =>
      obtain rfl := Nat.le_zero.mp hfuel
      exact .inr ⟨arrivals, by simp [recvLoop], Nat.zero_le _, rfl⟩
  | succ fuel ih =>
      cases size with
      | zero =>
          exact .inr ⟨arrivals, by simp [recvLoop], Nat.zero_le _, rfl⟩
      | succ size =>
          rw [recvLoop]
          rcases recv_cases size arrivals with
            ⟨hnone, hempty⟩ | ⟨part, rest, hsome, hne, hle, hready⟩
          · rw [hnone, hempty]
            exact .inl ⟨rfl, Nat.succ_pos size⟩
          · have hpos := List.length_pos_of_ne_nil hne
            rw [hsome, hready]
            dsimp only
            have hless : size + 1 - part.length ≤ fuel := by omega
            rcases ih hless rest (got ++ part) with ⟨hnone, hlt⟩ | ⟨rest', hloop, hlen, hrest'⟩
            · refine .inl ⟨hnone, ?_⟩
              rw [List.length_append]
              omega
            · refine .inr ⟨rest', ?_, ?_, ?_⟩
              · rw [hloop, List.append_assoc, List.take_append,
                  List.take_of_length_le hle]
              · rw [List.length_append]
                omega
              · rw [hrest', List.drop_append, List.drop_of_length_le hle,
                  List.nil_append]

/-- **However the stream is cut into chunks**, the same elements are read, and
the read fails exactly when too few are ready. -/
theorem recvExact_eq (size : Nat) (arrivals : List (List α)) :
    recvExact size arrivals = none ∧ (ready arrivals).length < size ∨
      ∃ rest, recvExact size arrivals =
          some ((ready arrivals).take size, rest) ∧
        size ≤ (ready arrivals).length ∧
        ready rest = (ready arrivals).drop size :=
  recvLoop_eq (Nat.le_refl size) arrivals []

/-- Write all of some data: what has been written, the script that is left, and
whether it was all. -/
def sendAll : List Nat → List α → List α × List Nat × Bool
  | windows, [] => ([], windows, true)
  | [], _ :: _ => ([], [], false)
  | w :: windows, a :: data =>
      if w = 0 then ([], windows, false)
      else
        let r := sendAll windows ((a :: data).drop w)
        ((a :: data).take w ++ r.1, r.2)

@[simp] theorem sendAll_nil (windows : List Nat) :
    sendAll windows ([] : List α) = ([], windows, true) := by
  cases windows <;> rfl

/-- **What is written is the data up to some point**, and all of it exactly
when the loop says so. -/
theorem sendAll_prefix (windows : List Nat) (data : List α) :
    (sendAll windows data).1 <+: data ∧
      ((sendAll windows data).2.2 = true ↔ (sendAll windows data).1 = data) := by
  induction windows generalizing data with
  | nil =>
      cases data with
      | nil => simp
      | cons a data => simp [sendAll]
  | cons w windows ih =>
      cases data with
      | nil => simp
      | cons a data =>
          by_cases hw : w = 0
          · simp [sendAll, hw]
          · obtain ⟨hpre, hall⟩ := ih ((a :: data).drop w)
            have hcut := List.take_append_drop w (a :: data)
            simp only [sendAll, hw, if_false]
            constructor
            · rw [← List.prefix_append_right_inj ((a :: data).take w),
                hcut] at hpre
              exact hpre
            · rw [hall]
              constructor
              · intro heq
                rw [heq, hcut]
              · intro heq
                exact List.append_cancel_left (heq.trans hcut.symm)

/-- A socket on which a write that fails is the last. -/
def Steady (windows : List Nat) : Prop :=
  0 ∉ windows

instance (windows : List Nat) : Decidable (Steady windows) :=
  inferInstanceAs (Decidable (0 ∉ windows))

/-- What is left of the script. -/
theorem sendAll_suffix (windows : List Nat) (data : List α) :
    (sendAll windows data).2.1 <:+ windows := by
  induction windows generalizing data with
  | nil => cases data <;> simp [sendAll]
  | cons w windows ih =>
      cases data with
      | nil => simp
      | cons a data =>
          unfold sendAll
          split
          · exact List.suffix_cons w windows
          · exact (ih _).trans (List.suffix_cons w windows)

/-- On a steady socket nothing can be written after a failure. -/
theorem Steady.sendAll_fails
    {windows : List Nat} (h : Steady windows) {data : List α}
    (hfails : (sendAll windows data).2.2 = false) :
    (sendAll windows data).2.1 = [] := by
  induction windows generalizing data with
  | nil =>
      cases data with
      | nil => simp at hfails
      | cons a data => rfl
  | cons w windows ih =>
      rw [Steady, List.mem_cons, not_or] at h
      obtain ⟨hw, hrest⟩ := h
      cases data with
      | nil => simp at hfails
      | cons a data =>
          have hw : w ≠ 0 := fun e => hw e.symm
          simp only [sendAll, hw, if_false] at hfails ⊢
          exact ih hrest hfails

/-- A steady socket with a write for every element takes all of the data, and
has a write left for every further one. -/
theorem Steady.sendAll_ok
    {windows : List Nat} (h : Steady windows) {data : List α}
    (hroom : data.length ≤ windows.length) :
    (sendAll windows data).2.2 = true ∧
      windows.length ≤ (sendAll windows data).2.1.length + data.length := by
  induction windows generalizing data with
  | nil =>
      obtain rfl : data = [] := by simpa using hroom
      exact ⟨rfl, Nat.zero_le _⟩
  | cons w windows ih =>
      rw [Steady, List.mem_cons, not_or] at h
      obtain ⟨hw, hrest⟩ := h
      cases data with
      | nil => simp
      | cons a data =>
          have hw : w ≠ 0 := fun e => hw e.symm
          simp only [List.length_cons] at hroom ⊢
          simp only [sendAll, hw, if_false]
          have hlen : ((a :: data).drop w).length ≤ data.length := by
            rw [List.length_drop, List.length_cons]
            omega
          have hroom' : ((a :: data).drop w).length ≤ windows.length := by
            omega
          obtain ⟨hall, hleft⟩ := ih hrest hroom'
          exact ⟨hall, by omega⟩

end Lib
end NanoExchange
