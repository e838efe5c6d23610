import NanoExchange.Lib.Bytes
import NanoExchange.Lib.Framing
import Mathlib.Data.List.Infix

/-!
# Reading items off a stream

A reader takes one item off the front of a stream, or finds that the stream
does not begin with a complete one.  `readAll` goes on as long as it can.

If the reader `Delimits` the items that a writer writes, a stream of items is
read back (`Delimits.readAll_flatMap`), and of a stream that is cut off
somewhere the first items are (`Delimits.readAll_prefix`).  Readers are built
from those of numbers and of messages that tell their size.
-/

namespace NanoExchange
namespace Lib

variable {α β : Type*}

/-- The items at the front of a stream, with a bound on their number. -/
def readAll (read : List α → Option (β × List α)) : Nat → List α → List β
  | 0, _ => []
  | fuel + 1, data =>
      match read data with
      | none => []
      | some (b, rest) => b :: readAll read fuel rest

/-- An item that is written in front of anything is read back, and no item is
read from a part of one. -/
structure Delimits (ok : β → Prop) (encode : β → List α)
    (read : List α → Option (β × List α)) : Prop where
  empty : read [] = none
  nonempty : ∀ b, ok b → encode b ≠ []
  whole : ∀ b rest, ok b → read (encode b ++ rest) = some (b, rest)
  part : ∀ b data, ok b → data <+: encode b → data ≠ encode b →
    read data = none

namespace Delimits

variable {ok : β → Prop} {encode : β → List α}
  {read : List α → Option (β × List α)}

theorem readAll_of_none
    {data : List α} (hread : read data = none) (fuel : Nat) :
    readAll read fuel data = [] := by
  cases fuel with
  | zero => rfl
  | succ fuel => rw [readAll, hread]

/-- The item at the front. -/
theorem readAll_append
    (h : Delimits ok encode read) {b : β} (hb : ok b) {rest : List α}
    {fuel : Nat} (hfuel : (encode b ++ rest).length ≤ fuel) :
    ∃ fuel', rest.length ≤ fuel' ∧
      readAll read fuel (encode b ++ rest) = b :: readAll read fuel' rest := by
  have hpos := List.length_pos_of_ne_nil (h.nonempty b hb)
  rw [List.length_append] at hfuel
  cases fuel with
  | zero => omega
  | succ fuel =>
      refine ⟨fuel, by omega, ?_⟩
      rw [readAll, h.whole b rest hb]

/-- **A stream of items is read back.** -/
theorem readAll_flatMap
    (h : Delimits ok encode read) {bs : List β} (hbs : ∀ b ∈ bs, ok b)
    {fuel : Nat} (hfuel : (bs.flatMap encode).length ≤ fuel) :
    readAll read fuel (bs.flatMap encode) = bs := by
  induction bs generalizing fuel with
  | nil => exact readAll_of_none h.empty fuel
  | cons b bs ih =>
      obtain ⟨hb, hbs⟩ := List.forall_mem_cons.mp hbs
      rw [List.flatMap_cons] at hfuel ⊢
      obtain ⟨fuel', hfuel', hread⟩ := h.readAll_append hb hfuel
      rw [hread, ih hbs hfuel']

/-- **Of a stream that is cut off** the first items are read. -/
theorem readAll_prefix
    (h : Delimits ok encode read) {bs : List β} (hbs : ∀ b ∈ bs, ok b)
    {data : List α} (hdata : data <+: bs.flatMap encode) {fuel : Nat}
    (hfuel : data.length ≤ fuel) :
    readAll read fuel data <+: bs := by
  induction bs generalizing data fuel with
  | nil =>
      obtain rfl : data = [] := List.prefix_nil.mp hdata
      rw [readAll_of_none h.empty]
  | cons b bs ih =>
      obtain ⟨hb, hbs⟩ := List.forall_mem_cons.mp hbs
      rw [List.flatMap_cons] at hdata
      by_cases hwhole : encode b <+: data
      · -- the first item is complete, and the cut is behind it
        obtain ⟨rest, rfl⟩ := hwhole
        have hrest := (List.prefix_append_right_inj (encode b)).mp hdata
        obtain ⟨fuel', hfuel', hread⟩ := h.readAll_append hb hfuel
        rw [hread]
        exact List.cons_prefix_cons.mpr ⟨rfl, ih hbs hrest hfuel'⟩
      · have hpart : data <+: encode b :=
          (List.prefix_or_prefix_of_prefix hdata
            (List.prefix_append (encode b) _)).resolve_right hwhole
        have hne : data ≠ encode b := by
          rintro rfl
          exact hwhole (List.prefix_refl _)
        rw [readAll_of_none (h.part b data hb hpart hne)]
        exact List.nil_prefix

/-- A pair of items, one behind the other. -/
def readPair {γ : Type*} (read : List α → Option (β × List α))
    (read' : List α → Option (γ × List α)) (data : List α) :
    Option ((β × γ) × List α) :=
  (read data).bind fun r => (read' r.2).map fun r' => ((r.1, r'.1), r'.2)

theorem pair
    {γ : Type*} {ok' : γ → Prop} {encode' : γ → List α}
    {read' : List α → Option (γ × List α)} (h : Delimits ok encode read)
    (h' : Delimits ok' encode' read') :
    Delimits (fun x : β × γ => ok x.1 ∧ ok' x.2)
      (fun x => encode x.1 ++ encode' x.2) (readPair read read') where
  empty := by
    rw [readPair, h.empty]
    rfl
  nonempty x hx := by
    have hne := h.nonempty x.1 hx.1
    simp [hne]
  whole x rest hx := by
    rw [readPair, List.append_assoc, h.whole x.1 _ hx.1, Option.bind_some,
      h'.whole x.2 rest hx.2, Option.map_some]
  part x data hx hdata hne := by
    by_cases hwhole : encode x.1 <+: data
    · obtain ⟨rest, rfl⟩ := hwhole
      have hrest := (List.prefix_append_right_inj (encode x.1)).mp hdata
      have hne' : rest ≠ encode' x.2 := by
        rintro rfl
        exact hne rfl
      rw [readPair, h.whole x.1 rest hx.1, Option.bind_some,
        h'.part x.2 rest hx.2 hrest hne', Option.map_none]
    · have hpart : data <+: encode x.1 :=
        (List.prefix_or_prefix_of_prefix hdata
          (List.prefix_append (encode x.1) _)).resolve_right hwhole
      have hne' : data ≠ encode x.1 := by
        rintro rfl
        exact hwhole (List.prefix_refl _)
      rw [readPair, h.part x.1 data hx.1 hpart hne', Option.bind_none]

/-- An item that is decoded once it is read. -/
def readDecode {γ : Type*} (read : List α → Option (β × List α))
    (decode : β → Option γ) (data : List α) : Option (γ × List α) :=
  (read data).bind fun r => (decode r.1).map fun c => (c, r.2)

theorem decode
    {γ : Type*} {ok' : γ → Prop} {f : γ → β} {g : β → Option γ}
    (h : Delimits ok encode read) (hok : ∀ c, ok' c → ok (f c))
    (hg : ∀ c, ok' c → g (f c) = some c) :
    Delimits ok' (fun c => encode (f c)) (readDecode read g) where
  empty := by
    rw [readDecode, h.empty]
    rfl
  nonempty c hc := h.nonempty (f c) (hok c hc)
  whole c rest hc := by
    rw [readDecode, h.whole (f c) rest (hok c hc), Option.bind_some, hg c hc,
      Option.map_some]
  part c data hc hdata hne := by
    rw [readDecode, h.part (f c) data (hok c hc) hdata hne, Option.bind_none]

end Delimits

/-- A number of `w` bytes. -/
theorem delimits_word {w : Nat} (hw : 0 < w) :
    Delimits (fun n => n < 2 ^ (8 * w)) (toBigEndian w) (readWord w) where
  empty := by
    rw [readWord, if_neg]
    rw [List.length_nil]
    omega
  nonempty n _ := by
    rw [← List.length_pos_iff, length_toBigEndian]
    exact hw
  whole n rest hn := readWord_toBigEndian w hn rest
  part n data _ hdata hne := by
    have hlen := hdata.length_le
    rw [length_toBigEndian] at hlen
    rw [readWord, if_neg]
    intro hle
    refine hne (hdata.eq_of_length ?_)
    rw [length_toBigEndian]
    omega

/-- The message at the front of a stream, whose first element tells its
size. -/
def cutMessage (size : α → Nat) : List α → Option (List α × List α)
  | [] => none
  | t :: rest =>
      if size t = 0 ∨ (t :: rest).length < size t then none
      else some ((t :: rest).take (size t), (t :: rest).drop (size t))

theorem delimits_message (size : α → Nat) :
    Delimits (Framing.Complete size) id (cutMessage size) where
  empty := rfl
  nonempty m hm := by
    obtain ⟨t, rest, rfl, -⟩ := hm
    exact List.cons_ne_nil t rest
  whole m rest hm := by
    obtain ⟨t, left, rfl, hlen⟩ := hm
    have hlong : ¬ (size t = 0 ∨ (t :: (left ++ rest)).length < size t) := by
      rw [List.length_cons] at hlen ⊢
      rw [List.length_append]
      omega
    rw [id, List.cons_append, cutMessage, if_neg hlong, ← List.cons_append,
      List.take_left' hlen, List.drop_left' hlen]
  part m data hm hdata hne := by
    obtain ⟨t, left, rfl, hlen⟩ := hm
    cases data with
    | nil => rfl
    | cons t' data =>
        obtain ⟨rest, hrest⟩ := hdata
        rw [id, List.cons_append, List.cons.injEq] at hrest
        obtain ⟨rfl, rfl⟩ := hrest
        have hpos : rest ≠ [] := by
          rintro rfl
          rw [List.append_nil] at hne
          exact hne rfl
        have hshort : (t' :: data).length < size t' := by
          rw [List.length_cons, List.length_append] at hlen
          have := List.length_pos_iff.mpr hpos
          rw [List.length_cons]
          omega
        rw [cutMessage, if_pos (Or.inr hshort)]

end Lib
end NanoExchange
