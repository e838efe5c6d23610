import NanoExchange.Gateway.ClientView
import NanoExchange.Gateway.Delivery

/-!
# Reading replies

The client's half of the outbound format.  A client reads a message by its type
byte and takes the fields of its struct (`OuchReplies.decodeReply`).  The
encoder narrows the numbers of a response to the widths of the fields, so the
client reads what the response says if these fit (`decodeReply_encodeOuch`), and
in a run on requests with numbers of 32 bits they do (`Market.run_fits`).
-/

namespace NanoExchange

open Lib

/-- The numbers fit into the fields of the message. -/
def Reply.Fits : Reply → Prop
  | .accepted _ w | .replaced _ w =>
      w.stock < wordSize ∧ w.price < 2 ^ 32 ∧ w.shares < 2 ^ 32
  | .executed _ shares | .canceled _ shares => shares < 2 ^ 32
  | .rejected _ => True

namespace OuchReplies

/-- The kind of a message, by its type byte. -/
def statusOf (R : OuchReplies) (t : UInt8) : Option ResponseType :=
  [.accepted, .executed, .canceled, .cancelRejected, .modified].find?
    fun s => R.typeByte s = t

/-- The number in a field of a message. -/
def number (R : OuchReplies) (s : ResponseType) (f : ReplyField)
    (message : List UInt8) : Nat :=
  ofBigEndian (R.replyField s f message)

/-- The order in an `OrderAccepted` or an `OrderReplaced`. -/
def workingOf (R : OuchReplies) (s : ResponseType) (message : List UInt8) :
    Working where
  stock := R.number s .stock message
  side := sideOf (R.replyField s .buySellIndicator message)
  price := R.number s .price message
  shares := R.number s .shares message

/-- What a message of a known kind says. -/
def replyOf (R : OuchReplies) (s : ResponseType) (message : List UInt8) :
    Reply :=
  let token := tokenAt message ((R.layout s).offset .token)
  match s with
  | .accepted => .accepted token (R.workingOf s message)
  | .modified => .replaced token (R.workingOf s message)
  | .executed => .executed token (R.number s .executedShares message)
  | .canceled => .canceled token (R.number s .decrementShares message)
  | .cancelRejected => .rejected token

/-- What a message says, if it is one of the gateway's. -/
def decodeReply (R : OuchReplies) (message : List UInt8) : Option Reply :=
  (message.head?.bind R.statusOf).map fun s => R.replyOf s message

variable {R : OuchReplies} {size : UInt8 → Nat}

theorem statusOf_typeByte
    (htypes : Function.Injective R.typeByte) (s : ResponseType) :
    R.statusOf (R.typeByte s) = some s := by
  cases s <;> simp [statusOf, htypes.eq_iff]

section Encoded

variable {x : MEClientResponse} {now : Nat}

theorem tokenAt_encodeOuch (x : MEClientResponse) (now : Nat) :
    tokenAt (R.encodeOuch x now) ((R.layout x.status).offset .token) =
      x.orderToken := by
  have hinside := (R.layout x.status).inside .token
    (by cases x.status <;> simp [ResponseType.fields])
  have hlen := (R.length_encodeOuch x now).1
  refine Vector.toList_inj.mp ?_
  rw [tokenAt_toList (by rw [hlen]; exact hinside)]
  exact R.tokenField_encodeOuch x now

/-- A number that fits into its field is read back. -/
theorem number_encodeOuch
    {f : ReplyField} (k v : Nat) (h : (f, toBigEndian k v) ∈ R.values x now)
    (hlt : v < 256 ^ k) :
    R.number x.status f (R.encodeOuch x now) = v := by
  rw [number, replyField_encodeOuch h, ofBigEndian_toBigEndian,
    Nat.mod_eq_of_lt hlt]

theorem workingOf_encodeOuch
    (hstatus : x.status = .accepted ∨ x.status = .modified)
    (hstock : x.tickerId < wordSize) (hprice : x.price < 2 ^ 32)
    (hqty : x.qty < 2 ^ 32) :
    R.workingOf x.status (R.encodeOuch x now) =
      ⟨x.tickerId, x.side, x.price, x.qty⟩ := by
  have hvalues : ∀ v ∈ [(ReplyField.buySellIndicator, [x.side.indicator]),
      (.shares, toBigEndian 4 x.qty), (.stock, toBigEndian 8 x.tickerId),
      (.price, toBigEndian 4 x.price)], v ∈ R.values x now := by
    unfold values
    rcases hstatus with hstatus | hstatus <;> rw [hstatus] <;>
      cases x.side <;> simp [Side.indicator]
  have hside : sideOf (R.replyField x.status .buySellIndicator
      (R.encodeOuch x now)) = x.side := by
    rw [replyField_encodeOuch (hvalues _ List.mem_cons_self)]
    cases x.side <;> rfl
  rw [workingOf, hside,
    number_encodeOuch 8 x.tickerId (hvalues _ (by simp)) hstock,
    number_encodeOuch 4 x.price (hvalues _ (by simp)) hprice,
    number_encodeOuch 4 x.qty (hvalues _ (by simp)) hqty]

theorem replyOf_encodeOuch (hfits : x.reply.Fits) (now : Nat) :
    R.replyOf x.status (R.encodeOuch x now) = x.reply := by
  unfold MEClientResponse.reply at hfits ⊢
  unfold replyOf
  dsimp only
  rw [tokenAt_encodeOuch]
  cases hstatus : x.status <;> rw [hstatus] at hfits <;> dsimp only
  case accepted =>
    obtain ⟨hstock, hprice, hqty⟩ := hfits
    rw [← hstatus, workingOf_encodeOuch (.inl hstatus) hstock hprice hqty]
  case modified =>
    obtain ⟨hstock, hprice, hqty⟩ := hfits
    rw [← hstatus, workingOf_encodeOuch (.inr hstatus) hstock hprice hqty]
  case executed =>
    rw [← hstatus, number_encodeOuch 4 x.executedQty
      (by simp [values, hstatus]) hfits]
  case canceled =>
    rw [← hstatus, number_encodeOuch 4 x.leavesQty
      (by simp [values, hstatus]) hfits]

end Encoded

/-- **The client reads what the response says**, if its numbers fit. -/
theorem decodeReply_encodeOuch
    (hsize : R.Readable size) (htypes : Function.Injective R.typeByte)
    {x : MEClientResponse} (hfits : x.reply.Fits) (now : Nat) :
    R.decodeReply (R.encodeOuch x now) = some x.reply := by
  obtain ⟨rest, hhead⟩ := hsize.head_encodeOuch x now
  have hstatus : (R.encodeOuch x now).head?.bind R.statusOf =
      some x.status := by
    rw [hhead]
    exact statusOf_typeByte htypes x.status
  rw [decodeReply, hstatus, Option.map_some, replyOf_encodeOuch hfits]

end OuchReplies

/-- The numbers in the responses to an event fit. -/
def Event.Fits (e : Event) : Prop :=
  ∀ x ∈ e.responses Dialect.map, x.reply.Fits

namespace Event

theorem fits_filled
    {a : OrderArgs} {o : OrderInfo} {fill remaining : Quantity} {n : OrderId}
    (h : fill < 2 ^ 32) : (filled a o fill remaining n).Fits := by
  intro x hx
  rcases List.mem_pair.mp hx with rfl | rfl
  · exact h
  · exact h

theorem fits_rested (replacing : Bool) (a : OrderArgs) (q : Quantity) :
    (rested replacing a q).Fits := by
  cases replacing <;> exact nofun

theorem fits_killed
    {replacing : Bool} {a : OrderArgs} {q : Quantity} (h : q < 2 ^ 32) :
    (killed replacing a q).Fits := by
  have hkilled : ∀ x ∈ [killedResponse a q], x.reply.Fits := by
    intro x hx
    rw [List.mem_singleton.mp hx]
    exact h
  cases replacing <;> exact hkilled

end Event

namespace Ladder

variable {A : Ladder} {a : OrderArgs}

/-- What is left of the resting orders fits into 32 bits. -/
def SharesFit (A : Ladder) : Prop :=
  ∀ o ∈ A.orders, o.remainingQuantity < 2 ^ 32

theorem SharesFit.trims
    {A' : Ladder} (h : A.SharesFit) (htrims : A.Trims A') : A'.SharesFit := by
  intro o ho
  obtain ⟨o', ho', q, -, hle, rfl⟩ := htrims.orders.shrinks o ho
  exact Nat.lt_of_le_of_lt hle (h o' ho')

theorem sweep_fits
    {reach : Price → Prop} [DecidablePred reach] (n : OrderId) {q : Quantity}
    {l : List OrderInfo} (hq : q < 2 ^ 32)
    (hl : ∀ o ∈ l, o.remainingQuantity < 2 ^ 32) :
    ∀ e ∈ (sweep reach a n q l).fills, e.Fits := by
  have hall := sweep_invariant (R := reach) (a := a)
    (fun es q l => q < 2 ^ 32 ∧ (∀ o ∈ l, o.remainingQuantity < 2 ^ 32) ∧
      ∀ e ∈ es, e.Fits) ?_ ?_ [] n ⟨hq, hl, nofun⟩
  · exact hall.2.2
  · rintro es n q o l - - ⟨hq, hl, hes⟩
    obtain ⟨ho, hl⟩ := List.forall_mem_cons.mp hl
    refine ⟨Nat.lt_of_le_of_lt (Nat.sub_le _ _) hq, hl, ?_⟩
    exact List.forall_mem_append.mpr
      ⟨hes, List.forall_mem_singleton.mpr (Event.fits_filled ho)⟩
  · rintro es n q o l - - ⟨hq, hl, hes⟩
    obtain ⟨ho, hl⟩ := List.forall_mem_cons.mp hl
    refine ⟨by decide, List.forall_mem_cons.mpr ⟨?_, hl⟩, ?_⟩
    · exact Nat.lt_of_le_of_lt (Nat.sub_le _ _) ho
    · exact List.forall_mem_append.mpr
        ⟨hes, List.forall_mem_singleton.mpr (Event.fits_filled hq)⟩

theorem SharesFit.enter
    (h : A.SharesFit) (hwf : A.WF) (n : OrderId) (replacing : Bool)
    (ha : a.initialQuantity < 2 ^ 32) :
    (A.enter n replacing a).ladder.SharesFit ∧
      ∀ e ∈ (A.enter n replacing a).events, e.Fits := by
  have hfills : ∀ e ∈ (A.sweepBy n a).fills, e.Fits :=
    sweep_fits n ha fun o ho => h o (mem_orders_of_side ho)
  have hqty : (A.sweepBy n a).remaining < 2 ^ 32 :=
    Nat.lt_of_le_of_lt (sweep_remaining_le n _ _) ha
  constructor
  · intro o ho
    rcases mem_enter_orders.mp ho with ho | ⟨-, -, rfl⟩
    · exact h.trims (trims_swept hwf n a) o ho
    · exact hqty
  · intro e he
    rcases A.enter_cases n replacing a with
      ⟨-, heq⟩ | ⟨-, -, heq⟩ | ⟨-, -, heq⟩ <;> rw [heq] at he
    · exact hfills e he
    · rcases List.mem_append.mp he with he | he
      · exact hfills e he
      · rw [List.mem_singleton.mp he]
        exact Event.fits_rested _ _ _
    · rcases List.mem_append.mp he with he | he
      · exact hfills e he
      · rw [List.mem_singleton.mp he]
        exact Event.fits_killed hqty

/-- **The responses to a request fit.** -/
theorem SharesFit.step
    (h : A.SharesFit) (hwf : A.WF) (n : OrderId) {r : MEClientRequest}
    (hr : r.Narrow) (hticker : r.tickerId < wordSize) :
    (A.step n r).ladder.SharesFit ∧ ∀ e ∈ (A.step n r).events, e.Fits := by
  rcases A.step_shapes n r with
    ⟨e, -, heq, he⟩ | ⟨o, -, hfind, hle, heq⟩ | ⟨hnew, heq⟩ |
      ⟨old, hmodify, -, -, heq⟩ <;> rw [heq]
  · refine ⟨h, List.forall_mem_singleton.mpr fun x hx => ?_⟩
    rcases he with rfl | ⟨o, -, rfl⟩
    · rw [List.mem_singleton.mp hx]
      trivial
    · rw [List.mem_singleton.mp hx]
      trivial
  · obtain ⟨ho, -⟩ := mem_of_find? hfind
    refine ⟨h.trims (trims_withdraw hwf ho _),
      List.forall_mem_singleton.mpr fun x hx => ?_⟩
    rw [List.mem_singleton.mp hx]
    exact Nat.lt_of_le_of_lt hle (h o ho)
  · have hqty : r.qty < 2 ^ 32 := hr.qty (by rw [hnew]; nofun)
    have hbump : A.bump.SharesFit := h
    obtain ⟨hladder, hevents⟩ := hbump.enter ((trims_bump hwf).wf hwf) n
      false (a := A.newArgs r) hqty
    refine ⟨hladder, List.forall_mem_cons.mpr ⟨fun x hx => ?_, hevents⟩⟩
    rw [List.mem_singleton.mp hx]
    exact ⟨hticker, hr.price, hqty⟩
  · have hqty : r.qty < 2 ^ 32 := hr.qty (by rw [hmodify]; nofun)
    have herase : (A.erase old.key).bump.SharesFit :=
      h.trims (trims_erase hwf old.key)
    obtain ⟨hladder, hevents⟩ := herase.enter (wf_erase_bump hwf old.key) n
      true (a := A.replacementArgs r old.side) hqty
    refine ⟨hladder, List.forall_mem_cons.mpr ⟨fun x hx => ?_, hevents⟩⟩
    rw [List.mem_singleton.mp hx]
    exact ⟨hticker, hr.price, hqty⟩

end Ladder

/-- **The responses of a run fit into their messages.** -/
theorem Market.run_fits
    {n : Nat} {rs : List MEClientRequest} (hfresh : FreshKeys rs)
    (hn : n ≤ wordSize) (htickers : TickersInRange n rs)
    (hnarrow : ∀ r ∈ rs, r.Narrow) :
    ∀ x ∈ ((run rs).sent Dialect.map).responses, x.reply.Fits := by
  have hall := run_induction
    (C := fun _ r => r.Narrow ∧ r.tickerId < wordSize)
    (fun M => (∀ t, (M.ladder t).SharesFit) ∧ ∀ e ∈ M.events, e.Fits)
    ?_ ?_ hfresh ?_
  · intro x hx
    rw [sent_responses] at hx
    obtain ⟨e, he, hx⟩ := List.mem_flatMap.mp hx
    exact hall.2 e he x hx
  · refine ⟨fun t o ho => ?_, nofun⟩
    cases ho
  · rintro M r hwf - ⟨hr, hticker⟩ ⟨hladders, hevents⟩
    obtain ⟨hladder, hnew⟩ :=
      (hladders r.tickerId).step (hwf _) M.matchIds hr hticker
    refine ⟨fun t => ?_, List.forall_mem_append.mpr ⟨hevents, hnew⟩⟩
    by_cases ht : t = r.tickerId
    · subst ht
      rw [next_ladder_self]
      exact hladder
    · rw [next_ladder_of_ne _ ht]
      exact hladders t
  · rintro pre r post rfl
    have hr : r ∈ pre ++ r :: post := by simp
    exact ⟨hnarrow r hr, (htickers r hr).trans_le hn⟩

end NanoExchange
