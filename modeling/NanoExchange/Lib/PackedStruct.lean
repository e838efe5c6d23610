import NanoExchange.Lib.Bytes

/-!
# Writing packed structs

`overwrite` puts bytes at an offset of a buffer.  A `StructLayout` says where
the fields of a packed struct lie; `fill` clears a struct and assigns its fields
one after another.  Since fields do not overlap, each keeps the bytes that it
was assigned.
-/

namespace NanoExchange
namespace Lib

/-- The buffer with some bytes written at an offset. -/
def overwrite (buffer : List UInt8) (offset : Nat) (bytes : List UInt8) :
    List UInt8 :=
  buffer.take offset ++ bytes ++ buffer.drop (offset + bytes.length)

section Overwrite

variable {buffer bytes : List UInt8} {offset : Nat}

theorem length_overwrite (h : offset + bytes.length ≤ buffer.length) :
    (overwrite buffer offset bytes).length = buffer.length := by
  simp only [overwrite, List.length_append, List.length_take,
    List.length_drop]
  omega

/-- What was written is read back. -/
theorem field_overwrite (h : offset + bytes.length ≤ buffer.length) :
    field (overwrite buffer offset bytes) offset bytes.length = bytes := by
  have hlen : (buffer.take offset).length = offset := by
    rw [List.length_take]
    omega
  rw [field, overwrite, List.append_assoc, List.drop_left' hlen,
    List.take_left' rfl]

/-- A field beside the written bytes is left as it was. -/
theorem field_overwrite_of_disjoint
    (h : offset + bytes.length ≤ buffer.length) {o w : Nat}
    (hdisjoint : o + w ≤ offset ∨ offset + bytes.length ≤ o) :
    field (overwrite buffer offset bytes) o w = field buffer o w := by
  have hlen : (buffer.take offset ++ bytes).length =
      offset + bytes.length := by
    rw [List.length_append, List.length_take]
    omega
  rw [field, field, overwrite]
  rcases hdisjoint with hbefore | hbehind
  · -- the field lies in the part that is kept in front
    have hfront : o ≤ (buffer.take offset).length := by
      rw [List.length_take]
      omega
    rw [List.append_assoc, List.drop_append_of_le_length hfront,
      List.take_append_of_le_length (by
        rw [List.length_drop, List.length_take]
        omega),
      List.drop_take, List.take_take, Nat.min_eq_left (by omega)]
  · -- and here in the part that is kept behind
    have hdrop : (buffer.take offset ++ bytes ++
        buffer.drop (offset + bytes.length)).drop o = buffer.drop o := by
      rw [List.drop_append, List.drop_eq_nil_of_le (by rw [hlen]; omega),
        List.nil_append, List.drop_drop, hlen]
      congr 1
      omega
    rw [hdrop]

end Overwrite

/-- Where the fields of a packed struct lie. -/
structure StructLayout {F : Type} (width : F → Nat) (fields : List F) where
  size : Nat
  offset : F → Nat
  inside : ∀ f ∈ fields, offset f + width f ≤ size
  disjoint : fields.Pairwise fun f g =>
    offset f + width f ≤ offset g ∨ offset g + width g ≤ offset f

namespace StructLayout

variable {F : Type} {width : F → Nat} {fields : List F}

def assign (S : StructLayout width fields) (buffer : List UInt8)
    (v : F × List UInt8) : List UInt8 :=
  overwrite buffer (S.offset v.1) v.2

/-- A struct whose bytes are all `blank`, with its fields then assigned. -/
def fill (S : StructLayout width fields) (blank : UInt8)
    (values : List (F × List UInt8)) : List UInt8 :=
  values.foldl S.assign (List.replicate S.size blank)

/-- Each field is assigned once, with bytes of its width. -/
structure Assigns (fields : List F) (width : F → Nat)
    (values : List (F × List UInt8)) : Prop where
  names : values.map Prod.fst = fields
  widths : ∀ v ∈ values, v.2.length = width v.1

variable {S : StructLayout width fields} {buffer : List UInt8}

theorem length_foldl_assign
    {values : List (F × List UInt8)} (hbuffer : buffer.length = S.size)
    (hfit : ∀ v ∈ values, S.offset v.1 + v.2.length ≤ S.size) :
    (values.foldl S.assign buffer).length = S.size := by
  induction values generalizing buffer with
  | nil => exact hbuffer
  | cons v values ih =>
      have hv := hfit v List.mem_cons_self
      refine ih ?_ fun u hu => hfit u (List.mem_cons_of_mem _ hu)
      rw [assign, length_overwrite (hbuffer ▸ hv), hbuffer]

/-- Assignments to other fields leave a field as it was. -/
theorem field_foldl_assign
    {values : List (F × List UInt8)} (hbuffer : buffer.length = S.size)
    (hfit : ∀ v ∈ values, S.offset v.1 + v.2.length ≤ S.size) {o w : Nat}
    (hdisjoint : ∀ v ∈ values,
      o + w ≤ S.offset v.1 ∨ S.offset v.1 + v.2.length ≤ o) :
    field (values.foldl S.assign buffer) o w = field buffer o w := by
  induction values generalizing buffer with
  | nil => rfl
  | cons v values ih =>
      have hv : S.offset v.1 + v.2.length ≤ buffer.length := by
        rw [hbuffer]
        exact hfit v List.mem_cons_self
      rw [List.foldl_cons,
        ih (by rw [assign, length_overwrite hv, hbuffer])
          (fun u hu => hfit u (List.mem_cons_of_mem _ hu))
          (fun u hu => hdisjoint u (List.mem_cons_of_mem _ hu)), assign,
        field_overwrite_of_disjoint hv (hdisjoint v List.mem_cons_self)]

theorem Assigns.fits
    {values : List (F × List UInt8)} (h : Assigns fields width values)
    (S : StructLayout width fields) :
    ∀ v ∈ values, S.offset v.1 + v.2.length ≤ S.size := by
  intro v hv
  rw [h.widths v hv]
  exact S.inside v.1 (h.names ▸ List.mem_map_of_mem hv)

theorem length_fill
    {values : List (F × List UInt8)} (h : Assigns fields width values)
    (S : StructLayout width fields) (blank : UInt8) :
    (S.fill blank values).length = S.size :=
  length_foldl_assign List.length_replicate (h.fits S)

/-- **Every field holds the bytes that it was assigned.** -/
theorem field_fill
    {values : List (F × List UInt8)} (h : Assigns fields width values)
    (S : StructLayout width fields) (blank : UInt8) {v : F × List UInt8}
    (hv : v ∈ values) :
    field (S.fill blank values) (S.offset v.1) (width v.1) = v.2 := by
  obtain ⟨front, behind, rfl⟩ := List.append_of_mem hv
  obtain rfl := h.names
  have hfits := h.fits S
  have hbuffer : (front.foldl S.assign
      (List.replicate S.size blank)).length = S.size :=
    length_foldl_assign List.length_replicate
      fun u hu => hfits u (List.mem_append_left _ hu)
  have hfit : S.offset v.1 + v.2.length ≤
      (front.foldl S.assign (List.replicate S.size blank)).length := by
    rw [hbuffer]
    exact hfits v hv
  have hbehind : ∀ u ∈ behind, S.offset v.1 + width v.1 ≤ S.offset u.1 ∨
      S.offset u.1 + u.2.length ≤ S.offset v.1 := by
    intro u hu
    have hmem : u ∈ front ++ v :: behind :=
      List.mem_append_right _ (List.mem_cons_of_mem _ hu)
    have hpairs := S.disjoint
    rw [List.pairwise_map, List.pairwise_append,
      List.pairwise_cons] at hpairs
    rw [h.widths u hmem]
    exact hpairs.2.1.1 u hu
  rw [fill, List.foldl_append, List.foldl_cons,
    field_foldl_assign (by rw [assign, length_overwrite hfit, hbuffer])
      (fun u hu => hfits u
        (List.mem_append_right _ (List.mem_cons_of_mem _ hu))) hbehind,
    assign, ← h.widths v hv]
  exact field_overwrite hfit

end StructLayout

end Lib
end NanoExchange
