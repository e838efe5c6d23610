import NanoExchange.Types
import Mathlib.Data.List.Perm.Basic

/-!
# The FIFO sequencer

`fifo_process.h`: decoded requests wait in a buffer and are pushed to the
request queue in the order of their kernel timestamps.

`std::sort` is a parameter of which only the standard's promise is known: the
result is a permutation of its input and sorted by the comparator.  How many
pushes succeed before the queue reports that it is full is up to its consumer,
and is a parameter of each call of `publishPendingOrders`.
-/

namespace NanoExchange

/-- `RecvClientRequest`, with the message from which the request was decoded. -/
structure RecvClientRequest where
  timeNanos : Nat
  request : MEClientRequest
  message : List UInt8
deriving DecidableEq

/-- What `std::sort` promises. -/
structure StdSort where
  sort : List RecvClientRequest → List RecvClientRequest
  perm : ∀ l, (sort l).Perm l
  sorted : ∀ l, (sort l).Pairwise fun a b => a.timeNanos ≤ b.timeNanos

structure FifoNdProcess where
  /-- `pending_orders_.size()` -/
  capacity : Nat
  /-- The first `pending_size_` entries of `pending_orders_`. -/
  pending : List RecvClientRequest := []
  pendingSorted : Bool := true

namespace FifoNdProcess

/-- The constructor. -/
def init (maxPending : Nat) : FifoNdProcess where
  capacity := max maxPending 1

/-- `addToPending`; `none` where the source returns false. -/
def addToPending (f : FifoNdProcess) (x : RecvClientRequest) :
    Option FifoNdProcess :=
  if f.pending.length ≥ f.capacity then none
  else some { f with pending := f.pending ++ [x], pendingSorted := false }

/-- The pending requests in the order in which they are pushed. -/
def ordered (S : StdSort) (f : FifoNdProcess) : List RecvClientRequest :=
  if f.pendingSorted then f.pending else S.sort f.pending

/-- `publishPendingOrders`, if the queue has room for `room` requests: the
sequencer after it, and what has been pushed. -/
def publishPendingOrders (S : StdSort) (room : Nat) (f : FifoNdProcess) :
    FifoNdProcess × List RecvClientRequest :=
  if f.pending = [] then (f, [])
  else
    ({ f with pending := (f.ordered S).drop room, pendingSorted := true },
      (f.ordered S).take room)

def growPending (f : FifoNdProcess) : FifoNdProcess :=
  { f with capacity := f.capacity * 2 }

theorem ordered_perm (S : StdSort) (f : FifoNdProcess) :
    (f.ordered S).Perm f.pending := by
  unfold ordered
  split_ifs
  · exact List.Perm.refl _
  · exact S.perm f.pending

/-- What is pushed and what stays is what was pending. -/
theorem publishPendingOrders_perm
    (S : StdSort) (room : Nat) (f : FifoNdProcess) :
    ((f.publishPendingOrders S room).2 ++
      (f.publishPendingOrders S room).1.pending).Perm f.pending := by
  unfold publishPendingOrders
  split_ifs with hnil
  · exact List.Perm.refl _
  · dsimp only
    rw [List.take_append_drop]
    exact f.ordered_perm S

/-- The buffer is not empty, and the pending requests are in it. -/
structure Fits (f : FifoNdProcess) : Prop where
  positive : 0 < f.capacity
  fits : f.pending.length ≤ f.capacity

namespace Fits

variable {f : FifoNdProcess}

theorem init (maxPending : Nat) : (FifoNdProcess.init maxPending).Fits where
  positive := Nat.lt_of_lt_of_le Nat.one_pos (Nat.le_max_right _ _)
  fits := Nat.zero_le _

theorem publish
    (h : f.Fits) (S : StdSort) (room : Nat) :
    (f.publishPendingOrders S room).1.Fits := by
  have hlen := (f.publishPendingOrders_perm S room).length_eq
  rw [List.length_append] at hlen
  have hcapacity : (f.publishPendingOrders S room).1.capacity =
      f.capacity := by
    unfold publishPendingOrders
    split_ifs <;> rfl
  have hfits := h.fits
  refine ⟨hcapacity ▸ h.positive, ?_⟩
  rw [hcapacity]
  omega

/-- A request that is added goes behind the pending ones. -/
theorem add
    (h : f.Fits) {f' : FifoNdProcess} {x : RecvClientRequest}
    (hadd : f.addToPending x = some f') :
    f'.Fits ∧ f'.pending = f.pending ++ [x] := by
  unfold addToPending at hadd
  split_ifs at hadd with hfull
  obtain rfl := Option.some.inj hadd
  refine ⟨⟨h.positive, ?_⟩, rfl⟩
  show (f.pending ++ [x]).length ≤ f.capacity
  rw [List.length_append, List.length_singleton]
  omega

/-- A buffer that has been grown has room. -/
theorem grow
    (h : f.Fits) (x : RecvClientRequest) :
    ∃ f', f.growPending.addToPending x = some f' ∧ f'.Fits ∧
      f'.pending = f.pending ++ [x] := by
  have hpos := h.positive
  have hfits := h.fits
  have hgrown : f.growPending.Fits := by
    refine ⟨?_, ?_⟩
    · show 0 < f.capacity * 2
      omega
    · show f.pending.length ≤ f.capacity * 2
      omega
  have hroom : ¬ f.growPending.pending.length ≥ f.growPending.capacity := by
    show ¬ f.pending.length ≥ f.capacity * 2
    omega
  have hadd : f.growPending.addToPending x = some { f.growPending with
      pending := f.growPending.pending ++ [x]
      pendingSorted := false } := if_neg hroom
  exact ⟨_, hadd, hgrown.add hadd⟩

end Fits

/-- A buffer that is marked as sorted is sorted. -/
def Sorted (f : FifoNdProcess) : Prop :=
  f.pendingSorted = true →
    f.pending.Pairwise fun a b => a.timeNanos ≤ b.timeNanos

namespace Sorted

variable {f : FifoNdProcess}

theorem init (maxPending : Nat) : (FifoNdProcess.init maxPending).Sorted :=
  fun _ => List.Pairwise.nil

theorem addToPending
    {f' : FifoNdProcess} {x : RecvClientRequest}
    (hadd : f.addToPending x = some f') :
    f'.Sorted := by
  unfold FifoNdProcess.addToPending at hadd
  split_ifs at hadd
  obtain rfl := Option.some.inj hadd
  exact nofun

theorem ordered (h : f.Sorted) (S : StdSort) :
    (f.ordered S).Pairwise fun a b => a.timeNanos ≤ b.timeNanos := by
  unfold FifoNdProcess.ordered
  split_ifs with hsorted
  · exact h hsorted
  · exact S.sorted _

/-- What is pushed is sorted, and no later than what stays. -/
theorem publish
    (h : f.Sorted) (S : StdSort) (room : Nat) :
    (f.publishPendingOrders S room).1.Sorted ∧
      (f.publishPendingOrders S room).2.Pairwise
        (fun a b => a.timeNanos ≤ b.timeNanos) ∧
      ∀ x ∈ (f.publishPendingOrders S room).2,
        ∀ y ∈ (f.publishPendingOrders S room).1.pending,
          x.timeNanos ≤ y.timeNanos := by
  unfold publishPendingOrders
  split_ifs with hnil
  · exact ⟨h, List.Pairwise.nil, nofun⟩
  · have hordered := h.ordered S
    rw [← List.take_append_drop room (f.ordered S),
      List.pairwise_append] at hordered
    obtain ⟨hpushed, hleft, hcross⟩ := hordered
    exact ⟨fun _ => hleft, hpushed, hcross⟩

end Sorted

end FifoNdProcess

end NanoExchange
