import NanoExchange.Gateway.Segments
import Mathlib.Data.List.Permutation

/-!
# One epoll round

In one round the callbacks of the sockets that have data run in some order, and
`onRecvFinished` publishes what they have staged.  As long as the requests of a
round fit into the buffer, they reach the queue in the order of their times,
whatever the order of the callbacks.  A request that finds the buffer full has
it published in the middle of the round.
-/

namespace NanoExchange

open Lib

namespace OrderServer

variable (env : Surroundings)

/-- The gateway when a request that is staged has found room: a full buffer has
been published. -/
def makeRoom (s : OrderServer) : OrderServer :=
  if s.fifo.pending.length ≥ s.fifo.capacity then s.publishPendingOrders env
  else s

/-- **What staging does**: a full buffer is published, or grown if that does not
help, and the request goes behind the pending ones. -/
theorem stage_eq
    {s : OrderServer} (h : s.fifo.Fits) (x : RecvClientRequest) :
    ∃ capacity, s.stage env x = .ok { s.makeRoom env with
        fifo :=
          { capacity := capacity
            pending := (s.makeRoom env).fifo.pending ++ [x]
            pendingSorted := false } } ∧
      (s.fifo.pending.length < s.fifo.capacity →
        capacity = s.fifo.capacity) := by
  have hadd : ∀ f : FifoNdProcess, f.pending.length < f.capacity →
      f.addToPending x = some { f with
        pending := f.pending ++ [x]
        pendingSorted := false } := fun f hlt => if_neg (Nat.not_le_of_lt hlt)
  have hfull : ∀ f : FifoNdProcess, f.capacity ≤ f.pending.length →
      f.addToPending x = none := fun f hle => if_pos hle
  unfold stage
  by_cases hlt : s.fifo.pending.length < s.fifo.capacity
  · rw [hadd _ hlt, makeRoom, if_neg (Nat.not_le_of_lt hlt)]
    exact ⟨s.fifo.capacity, rfl, fun _ => rfl⟩
  · have hle := Nat.le_of_not_lt hlt
    rw [hfull _ hle, makeRoom, if_pos hle]
    dsimp only
    by_cases hroom : (s.publishPendingOrders env).fifo.pending.length <
        (s.publishPendingOrders env).fifo.capacity
    · rw [hadd _ hroom]
      exact ⟨_, rfl, fun h => absurd h hlt⟩
    · have hpublished := (publishPendingOrders_moves env h).fits
      have hgrown : (s.publishPendingOrders env).fifo.growPending.pending.length
          < (s.publishPendingOrders env).fifo.growPending.capacity := by
        have hpos := hpublished.positive
        have hfits := hpublished.fits
        show _ < (s.publishPendingOrders env).fifo.capacity * 2
        show (s.publishPendingOrders env).fifo.pending.length < _
        omega
      rw [hfull _ (Nat.le_of_not_lt hroom)]
      dsimp only
      rw [hadd _ hgrown]
      exact ⟨_, rfl, fun h => absurd h hlt⟩

/-- What the parts of the gateway that talk to sockets do not touch. -/
structure SameRequests (s s' : OrderServer) : Prop where
  fifo : s'.fifo = s.fifo
  requestQ : s'.requestQ = s.requestQ
  publishes : s'.publishes = s.publishes
  tokenManager : s'.tokenManager = s.tokenManager
  decoded : s'.decoded = s.decoded
  handled : s'.handled = s.handled

variable {env} {L : OuchLayout}

theorem withClient_sameRequests (s : OrderServer) (fd : Nat) :
    SameRequests s (s.withClient fd) := by
  unfold withClient
  split_ifs
  · exact ⟨rfl, rfl, rfl, rfl, rfl, rfl⟩
  · exact ⟨rfl, rfl, rfl, rfl, rfl, rfl⟩

theorem arrive_sameRequests (s : OrderServer) (fd : Nat) (bytes : List UInt8) :
    SameRequests s (s.arrive fd bytes) := by
  obtain ⟨hfifo, hqueue, hpublishes, htokens, hdecoded, hhandled⟩ :=
    withClient_sameRequests s fd
  rw [arrive_eq]
  exact ⟨hfifo, hqueue, hpublishes, htokens, hdecoded, hhandled⟩

/-- **The invariant rule of a callback**: what every message of the client
keeps, and what does not depend on the sockets, holds after it. -/
theorem recv_invariant
    {s : OrderServer} {fd kernelTime : Nat} (I : OrderServer → Prop)
    (hsockets : ∀ t t', SameRequests t t' → I t → I t')
    (hmessage : ∀ t message, I t →
      ∃ t', t.onMessage L env (s.clientOf fd) kernelTime message = .ok t' ∧
        I t')
    (h : I s) (bytes : List UInt8) :
    ∃ s', s.step L env (.recv fd bytes kernelTime) = .ok s' ∧ I s' := by
  have harrive := hsockets s _ (arrive_sameRequests s fd bytes) h
  obtain ⟨t, ht, hI⟩ := foldlM_invariant I hmessage harrive
    (Framing.frames L.ouchMsgSize (s.inbound fd ++ bytes)).1
  rw [recv_eq, ht, ok_bind]
  exact ⟨_, rfl, hsockets t _ ⟨rfl, rfl, rfl, rfl, rfl, rfl⟩ hI⟩

variable (env L) in
/-- **What a message does**: nothing to the requests, or one more is decoded
and staged. -/
theorem onMessage_cases
    {s : OrderServer} (h : s.fifo.Fits) (cid : ClientId) (kernelTime : Nat)
    (message : List UInt8) :
    (∃ s', s.onMessage L env cid kernelTime message = .ok s' ∧
      (L.decodeOuch message cid s.tokenManager).1 = none ∧
      s' = { s with
        tokenManager := (L.decodeOuch message cid s.tokenManager).2 }) ∨
    ∃ s' r capacity, s.onMessage L env cid kernelTime message = .ok s' ∧
      (L.decodeOuch message cid s.tokenManager).1 = some r ∧
      s' = { s.makeRoom env with
        tokenManager := (L.decodeOuch message cid s.tokenManager).2
        decoded := s.decoded ++ [⟨kernelTime, r, message⟩]
        fifo :=
          { capacity := capacity
            pending := (s.makeRoom env).fifo.pending ++
              [⟨kernelTime, r, message⟩]
            pendingSorted := false } } ∧
      s'.fifo.Fits ∧
      (s.fifo.pending.length < s.fifo.capacity →
        capacity = s.fifo.capacity) := by
  unfold onMessage
  dsimp only
  cases hres : (L.decodeOuch message cid s.tokenManager).1 with
  | none => exact .inl ⟨_, rfl, rfl, rfl⟩
  | some r =>
      right
      dsimp only
      generalize hs₁ : ({ s with
        tokenManager := (L.decodeOuch message cid s.tokenManager).2
        decoded := s.decoded ++ [⟨kernelTime, r, message⟩] } :
          OrderServer) = s₁
      have hfits : s₁.fifo.Fits := by rwa [← hs₁]
      obtain ⟨capacity, hstage, hcapacity⟩ :=
        stage_eq env hfits ⟨kernelTime, r, message⟩
      obtain ⟨s', hs', hmoves⟩ := stage_ok env hfits ⟨kernelTime, r, message⟩
      obtain rfl := Except.ok.inj (hstage.symm.trans hs')
      refine ⟨_, r, capacity, hstage, rfl, ?_, hmoves.fits, ?_⟩
      · rw [← hs₁]
        unfold makeRoom publishPendingOrders
        dsimp only
        split_ifs <;> rfl
      · rw [← hs₁] at hcapacity
        exact hcapacity

/-- Publishing moves requests from the front of the ordered buffer to the
queue. -/
theorem publishPendingOrders_extends (env : Surroundings) (s : OrderServer) :
    ∃ more, (s.publishPendingOrders env).requestQ = s.requestQ ++ more ∧
      (more ++ (s.publishPendingOrders env).fifo.pending).Perm
        s.fifo.pending :=
  ⟨_, rfl, s.fifo.publishPendingOrders_perm _ _⟩

theorem makeRoom_extends (env : Surroundings) (s : OrderServer) :
    ∃ more, (s.makeRoom env).requestQ = s.requestQ ++ more ∧
      (more ++ (s.makeRoom env).fifo.pending).Perm s.fifo.pending := by
  unfold makeRoom
  split_ifs
  · exact publishPendingOrders_extends env s
  · exact ⟨[], (List.append_nil _).symm, List.Perm.refl _⟩

/-- If the queue has room for all that is pending, an unsorted buffer is sorted
and emptied. -/
theorem publishPendingOrders_all
    {s : OrderServer} (hsorted : s.fifo.pending ≠ [] →
      s.fifo.pendingSorted = false)
    (hroom : ∀ n, s.fifo.pending.length ≤ env.room n) :
    (s.publishPendingOrders env).requestQ =
        s.requestQ ++ env.stdSort.sort s.fifo.pending ∧
      (s.publishPendingOrders env).fifo.pending = [] := by
  have hlen := (env.stdSort.perm s.fifo.pending).length_eq
  unfold publishPendingOrders FifoNdProcess.publishPendingOrders
  by_cases hnil : s.fifo.pending = []
  · have hsort : env.stdSort.sort s.fifo.pending = [] := by
      rw [← List.length_eq_zero_iff, hlen, hnil]
      rfl
    rw [if_pos hnil, hsort]
    exact ⟨rfl, hnil⟩
  · have hordered : s.fifo.ordered env.stdSort =
        env.stdSort.sort s.fifo.pending := by
      rw [FifoNdProcess.ordered, hsorted hnil]
      rfl
    have hle : (env.stdSort.sort s.fifo.pending).length ≤
        env.room s.publishes := hlen ▸ hroom _
    rw [if_neg hnil]
    dsimp only
    rw [hordered, List.take_of_length_le hle, List.drop_eq_nil_of_le hle]
    exact ⟨rfl, rfl⟩

/-- A call of `onRecv` in a round. -/
structure Callback where
  fd : Nat
  bytes : List UInt8
  kernelTime : Nat

/-- One epoll round: the callbacks in the given order, then
`onRecvFinished`. -/
def epollRound (L : OuchLayout) (env : Surroundings) (s : OrderServer)
    (callbacks : List Callback) : Except Fault OrderServer := do
  let s ← callbacks.foldlM
    (fun s cb => s.step L env (.recv cb.fd cb.bytes cb.kernelTime)) s
  s.step L env .publish

/-- What tells requests apart without the ids of the gateway: time and
message. -/
def stamp (x : RecvClientRequest) : Nat × List UInt8 :=
  (x.timeNanos, x.message)

variable (env) in
/-- The gateway `s'` in the middle of a round that has begun in `s` with an
empty buffer; `X` has been decoded.  When the buffer has overflown, the first
`capacity` requests are in the queue in front of the others. -/
structure Staged (s : OrderServer) (X : List RecvClientRequest)
    (s' : OrderServer) : Prop where
  fits : s'.fifo.Fits
  decoded : s'.decoded = s.decoded ++ X
  batch :
    (X.length ≤ s.fifo.capacity ∧ s'.fifo.capacity = s.fifo.capacity ∧
      s'.fifo.pending = X ∧ s'.requestQ = s.requestQ ∧
      (X ≠ [] → s'.fifo.pendingSorted = false)) ∨
    (s.fifo.capacity < X.length ∧
      ((∀ n, s.fifo.capacity ≤ env.room n) → ∃ rest,
        s'.requestQ = s.requestQ ++
          env.stdSort.sort (X.take s.fifo.capacity) ++ rest ∧
        (rest ++ s'.fifo.pending).Perm (X.drop s.fifo.capacity)))

namespace Staged

variable {s s' : OrderServer} {X : List RecvClientRequest}

theorem start (hfits : s.fifo.Fits) (hempty : s.fifo.pending = []) :
    Staged env s [] s where
  fits := hfits
  decoded := (List.append_nil _).symm
  batch := .inl ⟨Nat.zero_le _, rfl, hempty, rfl, fun h => absurd rfl h⟩

/-- One more request is staged. -/
theorem add
    (h : Staged env s X s') {x : RecvClientRequest}
    {tokens : OrderTokenManager} {capacity : Nat}
    (hcapacity : s'.fifo.pending.length < s'.fifo.capacity →
      capacity = s'.fifo.capacity) {s'' : OrderServer}
    (hs'' : s'' = { s'.makeRoom env with
      tokenManager := tokens
      decoded := s'.decoded ++ [x]
      fifo :=
        { capacity := capacity
          pending := (s'.makeRoom env).fifo.pending ++ [x]
          pendingSorted := false } })
    (hfits : s''.fifo.Fits) :
    Staged env s (X ++ [x]) s'' := by
  have hlength : (X ++ [x]).length = X.length + 1 := List.length_append
  refine ⟨hfits, by rw [hs'', h.decoded, List.append_assoc], ?_⟩
  rcases h.batch with ⟨hle, hcap, hpending, hqueue, hsorted⟩ | ⟨hlt, hrest⟩
  · by_cases hroom : X.length < s.fifo.capacity
    · -- there is room in the buffer
      have hmake : s'.makeRoom env = s' := by
        rw [makeRoom, hpending, hcap, if_neg (Nat.not_le_of_lt hroom)]
      rw [hpending, hcap] at hcapacity
      rw [hmake] at hs''
      left
      refine ⟨hlength ▸ hroom, ?_, ?_, ?_, ?_⟩
      · rw [hs'']
        exact hcapacity hroom
      · rw [hs'', hpending]
      · rw [hs'', hqueue]
      · rw [hs'']
        exact fun _ => rfl
    · -- the request is the first that finds the buffer full
      have heq : X.length = s.fifo.capacity :=
        le_antisymm hle (Nat.le_of_not_lt hroom)
      have hmake : s'.makeRoom env = s'.publishPendingOrders env := by
        rw [makeRoom, hpending, hcap, if_pos (Nat.le_of_eq heq.symm)]
      right
      refine ⟨hlength ▸ heq ▸ Nat.lt_succ_self _, fun hall => ?_⟩
      obtain ⟨hpushed, hleft⟩ := publishPendingOrders_all
        (hpending ▸ hsorted) (fun n => hpending ▸ heq ▸ hall n)
      refine ⟨[], ?_, ?_⟩
      · rw [hs'', hmake, List.take_left' heq, List.append_nil]
        dsimp only
        rw [hpushed, hqueue, hpending]
      · rw [hs'', hmake, List.drop_left' heq]
        dsimp only
        rw [hleft]
        exact List.Perm.refl _
  · right
    refine ⟨hlength ▸ hlt.trans (Nat.lt_succ_self _), fun hall => ?_⟩
    obtain ⟨rest, hqueue, hperm⟩ := hrest hall
    obtain ⟨more, hmore, hmoved⟩ := makeRoom_extends env s'
    refine ⟨rest ++ more, ?_, ?_⟩
    · rw [hs'', List.take_append_of_le_length (Nat.le_of_lt hlt)]
      dsimp only
      rw [hmore, hqueue]
      simp only [List.append_assoc]
    · rw [hs'', List.drop_append_of_le_length (Nat.le_of_lt hlt)]
      dsimp only
      rw [← List.append_assoc]
      refine List.Perm.append_right [x] ?_
      rw [List.append_assoc]
      exact (hmoved.append_left rest).trans hperm

/-- A callback stages requests of its own time. -/
theorem recv
    (h : Staged env s X s') (cb : Callback) :
    ∃ s'' G, s'.step L env (.recv cb.fd cb.bytes cb.kernelTime) = .ok s'' ∧
      Staged env s (X ++ G) s'' ∧ ∀ x ∈ G, x.timeNanos = cb.kernelTime := by
  let I : OrderServer → Prop := fun t => ∃ G, Staged env s (X ++ G) t ∧
    ∀ x ∈ G, x.timeNanos = cb.kernelTime
  have hsockets : ∀ t t', SameRequests t t' → I t → I t' := by
    rintro t t' hsame ⟨G, hG, htimes⟩
    refine ⟨G, ⟨hsame.fifo ▸ hG.fits, hsame.decoded ▸ hG.decoded, ?_⟩, htimes⟩
    rw [hsame.fifo, hsame.requestQ]
    exact hG.batch
  have hmessage : ∀ t message, I t →
      ∃ t', t.onMessage L env (s'.clientOf cb.fd) cb.kernelTime message =
        .ok t' ∧ I t' := by
    rintro t message ⟨G, hG, htimes⟩
    rcases onMessage_cases env L hG.fits _ cb.kernelTime message with
      ⟨t', ht', -, rfl⟩ | ⟨t', r, capacity, ht', -, heq, hfits, hcapacity⟩
    · exact ⟨_, ht', G, ⟨hG.fits, hG.decoded, hG.batch⟩, htimes⟩
    · refine ⟨t', ht', G ++ [⟨cb.kernelTime, r, message⟩], ?_, ?_⟩
      · rw [← List.append_assoc]
        exact hG.add hcapacity heq hfits
      · intro x hx
        rcases List.mem_append.mp hx with hx | hx
        · exact htimes x hx
        · rw [List.mem_singleton.mp hx]
  have hstart : I s' := ⟨[], by rw [List.append_nil]; exact h, nofun⟩
  obtain ⟨s'', hs'', G, hG, htimes⟩ :=
    recv_invariant I hsockets hmessage hstart cb.bytes
  exact ⟨s'', G, hs'', hG, htimes⟩

/-- The callbacks of a round; if their times decrease, so do those of the
requests. -/
theorem callbacks
    (h : Staged env s X s') (l : List Callback) :
    ∃ s'' G, l.foldlM
        (fun s cb => s.step L env (.recv cb.fd cb.bytes cb.kernelTime)) s' =
        .ok s'' ∧
      Staged env s (X ++ G) s'' ∧
      (∀ x ∈ G, ∃ cb ∈ l, x.timeNanos = cb.kernelTime) ∧
      (l.Pairwise (fun a b => b.kernelTime ≤ a.kernelTime) →
        G.Pairwise fun x y => y.timeNanos ≤ x.timeNanos) := by
  induction l generalizing X s' with
  | nil =>
      exact ⟨s', [], rfl, by rw [List.append_nil]; exact h, nofun,
        fun _ => List.Pairwise.nil⟩
  | cons cb l ih =>
      obtain ⟨s₁, G₁, hs₁, h₁, htimes₁⟩ := h.recv cb
      obtain ⟨s₂, G₂, hs₂, h₂, htimes₂, hpairs⟩ := ih h₁
      refine ⟨s₂, G₁ ++ G₂, ?_, ?_, ?_, ?_⟩
      · rw [List.foldlM_cons, hs₁, ok_bind, hs₂]
      · rw [← List.append_assoc]
        exact h₂
      · intro x hx
        rcases List.mem_append.mp hx with hx | hx
        · exact ⟨cb, List.mem_cons_self, htimes₁ x hx⟩
        · obtain ⟨cb', hcb', htime⟩ := htimes₂ x hx
          exact ⟨cb', List.mem_cons_of_mem _ hcb', htime⟩
      · intro hl
        obtain ⟨hfirst, hl⟩ := List.pairwise_cons.mp hl
        refine List.pairwise_append.mpr ⟨?_, hpairs hl, ?_⟩
        · refine List.pairwise_of_forall_mem_list fun x hx y hy => ?_
          rw [htimes₁ x hx, htimes₁ y hy]
        · intro x hx y hy
          obtain ⟨cb', hcb', htime⟩ := htimes₂ y hy
          rw [htimes₁ x hx, htime]
          exact hfirst cb' hcb'

end Staged

/-- Distinct times in order are increasing. -/
theorem increasing_of_sorted
    {l : List RecvClientRequest}
    (h : l.Pairwise fun a b => a.timeNanos ≤ b.timeNanos)
    (hdistinct : ((l.map stamp).map Prod.fst).Nodup) :
    (l.map stamp).Pairwise fun a b => a.1 < b.1 := by
  rw [List.map_map, List.Nodup, List.pairwise_map] at hdistinct
  rw [List.pairwise_map]
  exact (h.and hdistinct).imp fun hab => lt_of_le_of_ne hab.1 hab.2

/-- A round whose requests fit into the buffer. -/
theorem round_of_fits
    {s t : OrderServer} {X : List RecvClientRequest} (h : Staged env s X t)
    (hle : X.length ≤ s.fifo.capacity) (hroom : ∀ n, X.length ≤ env.room n) :
    (t.publishPendingOrders env).requestQ =
      s.requestQ ++ env.stdSort.sort X := by
  rcases h.batch with ⟨-, -, hpending, hqueue, hsorted⟩ | ⟨hlt, -⟩
  · rw [(publishPendingOrders_all (hpending ▸ hsorted)
      fun n => hpending ▸ hroom n).1, hqueue, hpending]
  · exact absurd hle (Nat.not_le_of_lt hlt)

/-- A round whose requests do not fit: what is first in the buffer reaches the
queue before all others. -/
theorem round_of_overflow
    {s t : OrderServer} {X : List RecvClientRequest} (h : Staged env s X t)
    (hlt : s.fifo.capacity < X.length)
    (hroom : ∀ n, s.fifo.capacity ≤ env.room n) :
    ∃ rest, (t.publishPendingOrders env).requestQ = s.requestQ ++
        env.stdSort.sort (X.take s.fifo.capacity) ++ rest ∧
      ∀ x ∈ rest, x ∈ X.drop s.fifo.capacity := by
  rcases h.batch with ⟨hle, -⟩ | ⟨-, hrest⟩
  · exact absurd hle (Nat.not_le_of_lt hlt)
  · obtain ⟨rest, hqueue, hperm⟩ := hrest hroom
    obtain ⟨more, hmore, hmoved⟩ := publishPendingOrders_extends env t
    refine ⟨rest ++ more, by rw [hmore, hqueue, List.append_assoc], ?_⟩
    intro x hx
    refine hperm.subset ?_
    rcases List.mem_append.mp hx with hx | hx
    · exact List.mem_append_left _ hx
    · exact List.mem_append_right _
        (hmoved.subset (List.mem_append_left _ hx))

/-- The callbacks can run in the order of decreasing times. -/
theorem exists_decreasing (callbacks : List Callback) :
    ∃ l : List Callback, l.Perm callbacks ∧
      l.Pairwise fun a b => b.kernelTime ≤ a.kernelTime := by
  refine ⟨callbacks.mergeSort fun a b => decide (b.kernelTime ≤ a.kernelTime),
    List.mergeSort_perm _ _, ?_⟩
  refine (List.pairwise_mergeSort ?_ ?_ callbacks).imp of_decide_eq_true
  · intro a b c hab hbc
    rw [decide_eq_true_iff] at *
    exact le_trans hbc hab
  · intro a b
    simpa using le_total b.kernelTime a.kernelTime

/-- If the times decrease, then a round that does not fit puts a later request
in front of an earlier one. -/
theorem not_increasing_of_overflow
    {s t : OrderServer} {X : List RecvClientRequest} (h : Staged env s X t)
    (hpos : 0 < s.fifo.capacity) (hlt : s.fifo.capacity < X.length)
    (hroom : ∀ n, s.fifo.capacity ≤ env.room n)
    (hdecreasing : X.Pairwise fun x y => y.timeNanos ≤ x.timeNanos)
    {Y : List (Nat × List UInt8)} (hlength : Y.length = X.length)
    (hqueue : (t.publishPendingOrders env).requestQ.map stamp =
      s.requestQ.map stamp ++ Y) :
    ¬ Y.Pairwise fun a b => a.1 < b.1 := by
  intro hincreasing
  obtain ⟨rest, hrest, hbehind⟩ := round_of_overflow h hlt hroom
  obtain rfl : (env.stdSort.sort (X.take s.fifo.capacity) ++ rest).map stamp =
      Y := by
    rw [hrest, List.append_assoc, List.map_append] at hqueue
    exact List.append_cancel_left hqueue
  have hfirst : (X.take s.fifo.capacity).length = s.fifo.capacity := by
    rw [List.length_take]
    exact Nat.min_eq_left (Nat.le_of_lt hlt)
  have hpushed := (env.stdSort.perm (X.take s.fifo.capacity)).length_eq
  obtain ⟨x, hx⟩ := List.exists_mem_of_length_pos (hfirst ▸ hpos)
  obtain ⟨y, hy⟩ : ∃ y, y ∈ rest := by
    refine List.exists_mem_of_length_pos ?_
    rw [List.length_map, List.length_append, hpushed, hfirst] at hlength
    omega
  -- `x` was in the buffer before `y` was decoded
  rw [← List.take_append_drop s.fifo.capacity X,
    List.pairwise_append] at hdecreasing
  rw [List.pairwise_map, List.pairwise_append] at hincreasing
  have hxy := hincreasing.2.2 x ((env.stdSort.perm _).mem_iff.mpr hx) y hy
  exact absurd hxy
    (Nat.not_lt_of_le (hdecreasing.2.2 x hx y (hbehind y hy)))

variable (env) in
/-- However requests with different times have been decoded, they are sorted in
one way. -/
theorem sorted_stamps_unique
    {requests : List (Nat × List UInt8)}
    (hdistinct : (requests.map Prod.fst).Nodup) {X X' : List RecvClientRequest}
    (hX : (X.map stamp).Perm requests) (hX' : (X'.map stamp).Perm requests) :
    ((env.stdSort.sort X).map stamp).Perm requests ∧
      ((env.stdSort.sort X).map stamp).Pairwise (fun a b => a.1 < b.1) ∧
      (env.stdSort.sort X').map stamp = (env.stdSort.sort X).map stamp := by
  have hsorted : ∀ X : List RecvClientRequest,
      (X.map stamp).Perm requests →
      ((env.stdSort.sort X).map stamp).Perm requests ∧
      ((env.stdSort.sort X).map stamp).Pairwise fun a b => a.1 < b.1 := by
    intro X hX
    have hperm := ((env.stdSort.perm X).map stamp).trans hX
    exact ⟨hperm, increasing_of_sorted (env.stdSort.sorted X)
      ((hperm.map Prod.fst).nodup_iff.mpr hdistinct)⟩
  obtain ⟨hperm, hincreasing⟩ := hsorted X hX
  obtain ⟨hperm', hincreasing'⟩ := hsorted X' hX'
  refine ⟨hperm, hincreasing, List.Perm.eq_of_pairwise ?_ hincreasing'
    hincreasing (hperm'.trans hperm.symm)⟩
  exact fun a b _ _ hab hba => absurd hab (Nat.lt_asymm hba)

/-- **Priority does not depend on the order of the callbacks exactly if the
requests of the round fit into the buffer.**  A gateway that has made any run
has an empty buffer; in every order of the callbacks the same requests are
decoded, with different times, and the queue has room for them. -/
theorem round_in_time_order_iff
    (L : OuchLayout) (env : Surroundings) {fifoPending tokenPoolSz : Nat}
    {inputs : List Input} {s : OrderServer}
    (hs : run L env fifoPending tokenPoolSz inputs = .ok s)
    (hempty : s.fifo.pending = []) (callbacks : List Callback)
    (requests : List (Nat × List UInt8))
    (hrequests : ∀ l s', l.Perm callbacks → epollRound L env s l = .ok s' →
      ∃ X, s'.decoded = s.decoded ++ X ∧ (X.map stamp).Perm requests)
    (hdistinct : (requests.map Prod.fst).Nodup)
    (hroom : ∀ n, requests.length ≤ env.room n) :
    (∃ Y, Y.Perm requests ∧ Y.Pairwise (fun a b => a.1 < b.1) ∧
      ∀ l, l.Perm callbacks → ∃ s', epollRound L env s l = .ok s' ∧
        s'.requestQ.map stamp = s.requestQ.map stamp ++ Y) ↔
      requests.length ≤ s.fifo.capacity := by
  obtain ⟨s₀, hs₀, hinv⟩ :=
    run_inv env L (fun _ => True) fifoPending tokenPoolSz inputs
  obtain rfl := Except.ok.inj (hs₀.symm.trans hs)
  have hround : ∀ l : List Callback, l.Perm callbacks → ∃ t X,
      epollRound L env s₀ l = .ok (t.publishPendingOrders env) ∧
      Staged env s₀ X t ∧ (X.map stamp).Perm requests ∧
      (l.Pairwise (fun a b => b.kernelTime ≤ a.kernelTime) →
        X.Pairwise fun x y => y.timeNanos ≤ x.timeNanos) := by
    intro l hl
    obtain ⟨t, X, ht, hstaged, -, hpairs⟩ :=
      (Staged.start hinv.fits hempty).callbacks l
    have hepoll : epollRound L env s₀ l = .ok (t.publishPendingOrders env) := by
      rw [epollRound, ht, ok_bind]
      rfl
    obtain ⟨X', hX', hperm⟩ := hrequests l _ hl hepoll
    have hdecoded : s₀.decoded ++ X' = s₀.decoded ++ X :=
      hX'.symm.trans hstaged.decoded
    obtain rfl := List.append_cancel_left hdecoded
    exact ⟨t, X', hepoll, hstaged, hperm, hpairs⟩
  have hlength : ∀ X : List RecvClientRequest, (X.map stamp).Perm requests →
      X.length = requests.length := fun X hX => by
    rw [← hX.length_eq, List.length_map]
  constructor
  · rintro ⟨Y, hY, hincreasing, hall⟩
    by_contra hlt
    have hlt := Nat.lt_of_not_le hlt
    obtain ⟨l, hl, hdecreasing⟩ := exists_decreasing callbacks
    obtain ⟨t, X, hepoll, hstaged, hperm, hpairs⟩ := hround l hl
    have hX := hlength X hperm
    obtain ⟨s', hs', hqueue⟩ := hall l hl
    obtain rfl := Except.ok.inj (hepoll.symm.trans hs')
    exact not_increasing_of_overflow hstaged hinv.fits.positive (hX ▸ hlt)
      (fun n => (Nat.le_of_lt hlt).trans (hroom n)) (hpairs hdecreasing)
      (hY.length_eq.trans hX.symm) hqueue hincreasing
  · intro hle
    obtain ⟨t, X, -, -, hX, -⟩ := hround callbacks (List.Perm.refl _)
    obtain ⟨hperm, hincreasing, -⟩ := sorted_stamps_unique env hdistinct hX hX
    refine ⟨(env.stdSort.sort X).map stamp, hperm, hincreasing,
      fun l hl => ?_⟩
    obtain ⟨t', X', hepoll, hstaged, hX', -⟩ := hround l hl
    refine ⟨_, hepoll, ?_⟩
    rw [round_of_fits hstaged (hlength X' hX' ▸ hle)
      fun n => hlength X' hX' ▸ hroom n, List.map_append]
    exact congrArg _ (sorted_stamps_unique env hdistinct hX hX').2.2

/-- A round of two sockets. -/
def lateCallback : Callback := ⟨7, enterOrderMessage 0, 5⟩

def earlyCallback : Callback := ⟨8, enterOrderMessage 1, 3⟩

theorem perm_of_two
    {l : List Callback} (h : l.Perm [lateCallback, earlyCallback]) :
    l = [lateCallback, earlyCallback] ∨ l = [earlyCallback, lateCallback] := by
  have hmem := List.mem_permutations'.mpr h
  simpa [List.permutations'] using hmem

/-- In either order both messages are decoded. -/
theorem decoded_of_two
    {l : List Callback} {s : OrderServer}
    (hl : l.Perm [lateCallback, earlyCallback])
    (hs : epollRound OuchLayout.packed Surroundings.roomy (init 2 16) l =
      .ok s) :
    (s.decoded.map stamp).Perm
      [(5, enterOrderMessage 0), (3, enterOrderMessage 1)] := by
  rcases perm_of_two hl with rfl | rfl
  · have hobserved : ((epollRound OuchLayout.packed Surroundings.roomy
        (init 2 16) [lateCallback, earlyCallback]).toOption.map fun s =>
          s.decoded.map stamp) =
        some [(5, enterOrderMessage 0), (3, enterOrderMessage 1)] := by
      decide
    rw [hs] at hobserved
    have hdecoded : s.decoded.map stamp = _ := Option.some.inj hobserved
    rw [hdecoded]
  · have hobserved : ((epollRound OuchLayout.packed Surroundings.roomy
        (init 2 16) [earlyCallback, lateCallback]).toOption.map fun s =>
          s.decoded.map stamp) =
        some [(3, enterOrderMessage 1), (5, enterOrderMessage 0)] := by
      decide
    rw [hs] at hobserved
    have hdecoded : s.decoded.map stamp = _ := Option.some.inj hobserved
    rw [hdecoded]
    exact List.Perm.swap _ _ _

/-- Both requests fit into a buffer of two entries. -/
theorem round_in_time_order_iff_example :
    2 ≤ (init 2 16).fifo.capacity ∧
    ∃ Y, Y.Perm [(5, enterOrderMessage 0), (3, enterOrderMessage 1)] ∧
      Y.Pairwise (fun a b => a.1 < b.1) ∧
      ∀ l, l.Perm [lateCallback, earlyCallback] → ∃ s',
        epollRound OuchLayout.packed Surroundings.roomy (init 2 16) l =
          .ok s' ∧
        s'.requestQ.map stamp = (init 2 16).requestQ.map stamp ++ Y := by
  have hrun : run OuchLayout.packed Surroundings.roomy 2 16 [] =
      .ok (init 2 16) := rfl
  exact ⟨by decide, (round_in_time_order_iff OuchLayout.packed
    Surroundings.roomy hrun rfl [lateCallback, earlyCallback]
    [(5, enterOrderMessage 0), (3, enterOrderMessage 1)]
    (fun l s' hl hs' => ⟨s'.decoded, rfl, decoded_of_two hl hs'⟩)
    (by decide) (fun _ => show 2 ≤ 1000 by decide)).mpr (by decide)⟩

/-- With a buffer of one entry, the order of the callbacks is the order in the
queue. -/
theorem round_in_callback_order :
    (init 1 16).fifo.pending = [] ∧
    ((epollRound OuchLayout.packed Surroundings.roomy (init 1 16)
      [lateCallback, earlyCallback]).toOption.map fun s =>
        s.requestQ.map stamp) =
      some [(5, enterOrderMessage 0), (3, enterOrderMessage 1)] ∧
    ((epollRound OuchLayout.packed Surroundings.roomy (init 1 16)
      [earlyCallback, lateCallback]).toOption.map fun s =>
        s.requestQ.map stamp) =
      some [(3, enterOrderMessage 1), (5, enterOrderMessage 0)] := by
  decide

end OrderServer

end NanoExchange
