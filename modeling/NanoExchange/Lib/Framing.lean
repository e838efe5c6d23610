import Mathlib.Data.List.Induction
import Mathlib.Algebra.Order.Ring.Nat

/-!
# Cutting a stream into messages

A stream is cut into messages from the front.  The first element of a message
tells its size; an element with size 0 begins no message and is skipped; a
message that is not complete yet is left over.

By `frames_append` it does not matter in which pieces the stream arrives, if
what is left over of one piece is put before the next.
-/

namespace NanoExchange
namespace Lib
namespace Framing

variable {α : Type*} (size : α → Nat)

/-- The messages of a stream and what is left over, with a bound on the number
of cuts. -/
def cut : Nat → List α → List (List α) × List α
  | _, [] => ([], [])
  | 0, t :: rest => ([], t :: rest)
  | fuel + 1, t :: rest =>
      if size t = 0 then cut fuel rest
      else if (t :: rest).length < size t then ([], t :: rest)
      else
        let r := cut fuel ((t :: rest).drop (size t))
        ((t :: rest).take (size t) :: r.1, r.2)

/-- The messages of a stream and what is left over. -/
def frames (data : List α) : List (List α) × List α :=
  cut size data.length data

variable {size}

theorem length_drop_lt
    {t : α} (h : size t ≠ 0) (rest : List α) :
    ((t :: rest).drop (size t)).length ≤ rest.length := by
  rw [List.length_drop, List.length_cons]
  omega

theorem cut_eq_cut
    {data : List α} {fuel fuel' : Nat} (h : data.length ≤ fuel)
    (h' : data.length ≤ fuel') :
    cut size fuel data = cut size fuel' data := by
  induction fuel generalizing data fuel' with
  | zero =>
      obtain rfl := List.length_eq_zero_iff.mp (Nat.le_zero.mp h)
      cases fuel' <;> rfl
  | succ fuel ih =>
      cases data with
      | nil => cases fuel' <;> rfl
      | cons t rest =>
          rw [List.length_cons] at h h'
          obtain ⟨fuel', rfl⟩ :=
            Nat.exists_eq_succ_of_ne_zero (Nat.ne_of_gt (Nat.lt_of_lt_of_le
              (Nat.succ_pos _) h'))
          have hle := Nat.le_of_succ_le_succ h
          have hle' := Nat.le_of_succ_le_succ h'
          unfold cut
          by_cases hzero : size t = 0
          · simp only [hzero, if_true]
            exact ih hle hle'
          · have hdrop := length_drop_lt hzero rest
            simp only [hzero, if_false, ih (hdrop.trans hle) (hdrop.trans hle')]

theorem cut_eq_frames
    {data : List α} {fuel : Nat} (h : data.length ≤ fuel) :
    cut size fuel data = frames size data :=
  cut_eq_cut h le_rfl

@[simp] theorem frames_nil : frames size ([] : List α) = ([], []) := by
  rfl

theorem frames_skip
    {t : α} (h : size t = 0) (rest : List α) :
    frames size (t :: rest) = frames size rest := by
  simp only [frames, List.length_cons, cut, h, if_true]

theorem frames_short
    {t : α} {rest : List α} (h : (t :: rest).length < size t) :
    frames size (t :: rest) = ([], t :: rest) := by
  have hzero : size t ≠ 0 := Nat.ne_of_gt (Nat.zero_lt_of_lt h)
  rw [frames, List.length_cons, cut, if_neg hzero, if_pos h]

theorem frames_message
    {t : α} {rest : List α} (hzero : size t ≠ 0)
    (h : ¬ (t :: rest).length < size t) :
    frames size (t :: rest) =
      ((t :: rest).take (size t) ::
          (frames size ((t :: rest).drop (size t))).1,
        (frames size ((t :: rest).drop (size t))).2) := by
  rw [frames, List.length_cons, cut, if_neg hzero, if_neg h,
    cut_eq_frames (length_drop_lt hzero rest)]

variable (size) in
/-- Induction along the cuts. -/
theorem frames_induction
    {C : List α → Prop} (hnil : C [])
    (hskip : ∀ t rest, size t = 0 → C rest → C (t :: rest))
    (hshort : ∀ t rest, (t :: rest).length < size t → C (t :: rest))
    (hmessage : ∀ t rest, size t ≠ 0 → ¬ (t :: rest).length < size t →
      C ((t :: rest).drop (size t)) → C (t :: rest))
    (data : List α) : C data := by
  induction hn : data.length using Nat.strong_induction_on
    generalizing data with
  | _ n ih =>
      subst hn
      cases data with
      | nil => exact hnil
      | cons t rest =>
          by_cases hzero : size t = 0
          · exact hskip t rest hzero (ih _ (Nat.lt_succ_self _) rest rfl)
          · by_cases hlt : (t :: rest).length < size t
            · exact hshort t rest hlt
            · refine hmessage t rest hzero hlt (ih _ ?_ _ rfl)
              exact Nat.lt_succ_of_le (length_drop_lt hzero rest)

/-- **A stream in two pieces**: what is left over of the first is put before
the second. -/
theorem frames_append (data next : List α) :
    frames size (data ++ next) =
      ((frames size data).1 ++
          (frames size ((frames size data).2 ++ next)).1,
        (frames size ((frames size data).2 ++ next)).2) := by
  induction data using frames_induction size with
  | hnil => simp
  | hskip t rest hzero ih =>
      rw [List.cons_append, frames_skip hzero, frames_skip hzero, ih]
  | hshort t rest hlt =>
      rw [frames_short hlt]
      rfl
  | hmessage t rest hzero hlt ih =>
      have hle : size t ≤ (t :: rest).length := Nat.le_of_not_lt hlt
      have hlt' : ¬ (t :: (rest ++ next)).length < size t := by
        rw [← List.cons_append, List.length_append]
        omega
      rw [List.cons_append, frames_message hzero hlt', ← List.cons_append,
        List.take_append_of_le_length hle, List.drop_append_of_le_length hle,
        ih, frames_message hzero hlt]
      rfl

/-- A message of the size that its first element tells. -/
def Complete (size : α → Nat) (m : List α) : Prop :=
  ∃ t rest, m = t :: rest ∧ m.length = size t

theorem Complete.size_pos
    {m : List α} (h : Complete size m) {t : α} {rest : List α}
    (hm : m = t :: rest) : size t ≠ 0 ∧ m.length = size t := by
  obtain ⟨t', rest', rfl, hlen⟩ := h
  obtain ⟨rfl, rfl⟩ := List.cons.inj hm
  exact ⟨by rw [← hlen]; simp, hlen⟩

/-- Complete messages come out as they are. -/
theorem frames_flatten
    {ms : List (List α)} (h : ∀ m ∈ ms, Complete size m) :
    frames size ms.flatten = (ms, []) := by
  induction ms with
  | nil => rfl
  | cons m ms ih =>
      have ih := ih fun m' hm' => h m' (List.mem_cons_of_mem _ hm')
      obtain ⟨t, rest, hm, hlen⟩ := h m List.mem_cons_self
      obtain ⟨hzero, -⟩ := (h m List.mem_cons_self).size_pos hm
      have hlt : ¬ (t :: (rest ++ ms.flatten)).length < size t := by
        rw [← List.cons_append, ← hm, List.length_append]
        omega
      rw [List.flatten_cons, hm, List.cons_append, frames_message hzero hlt,
        ← List.cons_append, ← hm, List.take_left' hlen, List.drop_left' hlen,
        ih]

/-- What is cut out are complete messages. -/
theorem complete_of_mem_frames
    {data m : List α} (hm : m ∈ (frames size data).1) : Complete size m := by
  induction data using frames_induction size with
  | hnil => cases hm
  | hskip t rest hzero ih =>
      rw [frames_skip hzero] at hm
      exact ih hm
  | hshort t rest hlt =>
      rw [frames_short hlt] at hm
      cases hm
  | hmessage t rest hzero hlt ih =>
      rw [frames_message hzero hlt] at hm
      rcases List.mem_cons.mp hm with rfl | hm
      · obtain ⟨k, hk⟩ := Nat.exists_eq_succ_of_ne_zero hzero
        refine ⟨t, rest.take k, ?_, ?_⟩
        · rw [hk, List.take_succ_cons]
        · exact List.length_take_of_le (Nat.le_of_not_lt hlt)
      · exact ih hm

variable (size) in
/-- What is left over is the beginning of a message, or nothing. -/
theorem frames_left (data : List α) :
    (frames size data).2 = [] ∨
      ∃ t rest, (frames size data).2 = t :: rest ∧
        (t :: rest).length < size t := by
  induction data using frames_induction size with
  | hnil => exact .inl rfl
  | hskip t rest hzero ih => rwa [frames_skip hzero]
  | hshort t rest hlt =>
      rw [frames_short hlt]
      exact .inr ⟨t, rest, rfl, hlt⟩
  | hmessage t rest hzero hlt ih => rwa [frames_message hzero hlt]

end Framing
end Lib
end NanoExchange
