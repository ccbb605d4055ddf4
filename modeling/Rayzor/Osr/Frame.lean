import Rayzor.Ir.Types

/-!
Contract: the frame a resumed loop finds its live values in.

Owns: how many bytes a value of a type takes there, its alignment, and the
offsets `OsrFrame.forTypes` gives a list of types: aligned, one after the other
and inside the frame.
-/

namespace Rayzor.Osr

open Ir

def saturatingMul (left right : Nat) : Nat := min (left * right) (2 ^ 64 - 1)

/-- Bytes a value takes in a frame. Zero means the type has no layout. -/
def frameSizeOf : IrType → Nat
  | .bool | .i8 | .u8 => 1
  | .i16 | .u16 => 2
  | .i32 | .u32 | .f32 => 4
  | .i64 | .u64 | .f64 | .nullInt => 8
  | .dynamic | .ptr _ | .ref _ | .slice _ | .string | .function _ _ _ | .any => 8
  | .array element count | .vector element count => saturatingMul (frameSizeOf element) count
  | .opaqueType _ size _ => size
  | .struct _ _ | .union _ _ => 8
  | .generic base _ => frameSizeOf base
  | .void | .typeVar _ => 0

def frameAlignOf : IrType → Nat
  | .array element _ | .vector element _ => frameAlignOf element
  | .opaqueType _ _ align => max align 1
  | .generic base _ => frameAlignOf base
  | other => max 1 (min (frameSizeOf other) 8)

theorem frameAlignOf_pos : ∀ ty : IrType, 0 < frameAlignOf ty
  | .array element _ | .vector element _ => by
      rw [frameAlignOf]
      exact frameAlignOf_pos element
  | .generic base _ => by
      rw [frameAlignOf]
      exact frameAlignOf_pos base
  | .opaqueType _ _ align => by
      rw [frameAlignOf]
      omega
  | .void | .bool | .i8 | .i16 | .i32 | .i64 | .u8 | .u16 | .u32 | .u64 | .f32 | .f64
  | .dynamic | .ptr _ | .ref _ | .slice _ | .string | .function _ _ _ | .struct _ _
  | .union _ _ | .typeVar _ | .any | .nullInt => by
      simp only [frameAlignOf]
      omega

def alignUp (cursor align : Nat) : Nat := (cursor + (align - 1)) / align * align

theorem le_alignUp (cursor : Nat) {align : Nat} (positive : 0 < align) :
    cursor ≤ alignUp cursor align := by
  have split := Nat.div_add_mod (cursor + (align - 1)) align
  have below := Nat.mod_lt (cursor + (align - 1)) positive
  unfold alignUp
  rw [Nat.mul_comm]
  omega

theorem dvd_alignUp (cursor align : Nat) : align ∣ alignUp cursor align :=
  Nat.dvd_mul_left _ _

/-- Where each type goes from `cursor` on, and where the last one ends. -/
def place (cursor : Nat) : List IrType → List Nat × Nat
  | [] => ([], cursor)
  | ty :: rest =>
      let start := alignUp cursor (frameAlignOf ty)
      let (offsets, finish) := place (start + frameSizeOf ty) rest
      (start :: offsets, finish)

structure OsrFrame where
  offsets : List Nat
  size : Nat
  align : Nat

/-- Each type in order at its natural alignment. Offsets and size are `u32`. -/
def OsrFrame.forTypes (types : List IrType) : OsrFrame :=
  let align := types.foldl (fun align ty => max align (frameAlignOf ty)) 1
  let placed := place 0 types
  { offsets := placed.1.map (· % 2 ^ 32)
    size := min (alignUp placed.2 align) (2 ^ 64 - 1) % 2 ^ 32
    align := align % 2 ^ 32 }

@[simp] theorem length_place (cursor : Nat) (types : List IrType) :
    (place cursor types).1.length = types.length := by
  induction types generalizing cursor with
  | nil => rfl
  | cons ty rest ih => simp [place, ih]

theorem length_forTypes (types : List IrType) :
    (OsrFrame.forTypes types).offsets.length = types.length := by
  simp [OsrFrame.forTypes]

theorem le_place (cursor : Nat) (types : List IrType) : cursor ≤ (place cursor types).2 := by
  induction types generalizing cursor with
  | nil => exact le_refl cursor
  | cons ty rest ih =>
      have aligned := le_alignUp cursor (frameAlignOf_pos ty)
      have later := ih (alignUp cursor (frameAlignOf ty) + frameSizeOf ty)
      simp only [place]
      omega

theorem mem_place {cursor : Nat} {types : List IrType} {slot : Nat × IrType}
    (member : slot ∈ (place cursor types).1.zip types) :
    cursor ≤ slot.1 ∧ slot.1 + frameSizeOf slot.2 ≤ (place cursor types).2 ∧
      frameAlignOf slot.2 ∣ slot.1 := by
  induction types generalizing cursor with
  | nil => cases member
  | cons ty rest ih =>
      have aligned := le_alignUp cursor (frameAlignOf_pos ty)
      simp only [place, List.zip_cons_cons, List.mem_cons] at member ⊢
      rcases member with rfl | later
      · exact ⟨aligned, le_place _ rest, dvd_alignUp _ _⟩
      · obtain ⟨after, inside, divides⟩ := ih later
        exact ⟨by omega, inside, divides⟩

theorem pairwise_place (cursor : Nat) (types : List IrType) :
    ((place cursor types).1.zip types).Pairwise
      fun earlier later => earlier.1 + frameSizeOf earlier.2 ≤ later.1 := by
  induction types generalizing cursor with
  | nil => exact List.Pairwise.nil
  | cons ty rest ih =>
      simp only [place, List.zip_cons_cons]
      refine List.pairwise_cons.mpr ⟨fun later member => ?_, ih _⟩
      exact (mem_place member).1

theorem forTypes_offsets {types : List IrType} (fits : (place 0 types).2 < 2 ^ 32) :
    (OsrFrame.forTypes types).offsets = (place 0 types).1 := by
  refine (List.map_congr_left fun offset member => ?_).trans (List.map_id _)
  obtain ⟨index, inside, rfl⟩ := List.mem_iff_getElem.mp member
  have inTypes : index < types.length := by simpa using inside
  have zipped : ((place 0 types).1[index], types[index]) ∈ (place 0 types).1.zip types := by
    refine List.mem_iff_getElem.mpr ⟨index, ?_, ?_⟩
    · simp [inTypes]
    · simp
  obtain ⟨-, within, -⟩ := mem_place zipped
  exact Nat.mod_eq_of_lt (by omega)

/-- In a frame that fits 32 bits no two slots share a byte, and each lies at its
alignment inside the frame. -/
theorem forTypes_laidOut {types : List IrType}
    (fits : alignUp (place 0 types).2
      (types.foldl (fun align ty => max align (frameAlignOf ty)) 1) < 2 ^ 32) :
    (((OsrFrame.forTypes types).offsets.zip types).Pairwise
        fun earlier later => earlier.1 + frameSizeOf earlier.2 ≤ later.1) ∧
      ∀ slot ∈ (OsrFrame.forTypes types).offsets.zip types, frameAlignOf slot.2 ∣ slot.1 ∧
        slot.1 + frameSizeOf slot.2 ≤ (OsrFrame.forTypes types).size := by
  have positive : ∀ (rest : List IrType) (align : Nat), 0 < align →
      0 < rest.foldl (fun align ty => max align (frameAlignOf ty)) align := by
    intro rest
    induction rest with
    | nil => exact fun _ => id
    | cons ty rest ih => exact fun align above => ih _ (lt_max_of_lt_left above)
  have finish := le_alignUp (place 0 types).2 (positive types 1 Nat.one_pos)
  rw [forTypes_offsets (by omega)]
  refine ⟨pairwise_place 0 types, fun slot member => ?_⟩
  obtain ⟨-, within, divides⟩ := mem_place member
  refine ⟨divides, ?_⟩
  simp only [OsrFrame.forTypes]
  omega

theorem mixed_laidOut :
    (OsrFrame.forTypes [.i32, .f64, .bool]).offsets = [0, 8, 16] ∧
      ∀ slot ∈ [(0, IrType.i32), (8, .f64), (16, .bool)],
        frameAlignOf slot.2 ∣ slot.1 ∧ slot.1 + frameSizeOf slot.2 ≤ 24 := by
  have laidOut := @forTypes_laidOut [.i32, .f64, .bool] (by decide)
  exact ⟨rfl, laidOut.2⟩

end Rayzor.Osr
