import Mathlib

/-!
Contract: declarations of C structs, and where the C rules put their fields.
-/

namespace Rayzor.CStructs

abbrev Text := List Char

/-- The types of fields. The target of a pointer is known by its name alone. -/
inductive CType where
  | double
  | long
  | int
  | sizeT
  | charPointer
  | pointer (isConst : Bool) (target : Text)
  | named (name : Text)
  deriving DecidableEq

def CType.text : CType → Text
  | .double => "double".toList
  | .long => "long".toList
  | .int => "int".toList
  | .sizeT => "size_t".toList
  | .charPointer => "char*".toList
  | .pointer isConst target => (if isConst then "const ".toList else []) ++ target ++ ['*']
  | .named name => name

/-- `typedef struct { ... } Name;` -/
structure Declaration where
  name : Text
  fields : List (CType × Text)
  deriving DecidableEq

def typedefBody (fields : List (Text × Text)) : Text :=
  "typedef struct \x7b ".toList ++
    fields.flatMap fun field => field.1 ++ ' ' :: (field.2 ++ [';', ' '])

def typedefText (fields : List (Text × Text)) (name : Text) : Text :=
  typedefBody fields ++ '}' :: ' ' :: (name ++ [';', '\n'])

def Declaration.text (declaration : Declaration) : Text :=
  typedefText (declaration.fields.map fun field => (field.1.text, field.2)) declaration.name

structure Extent where
  size : Nat
  align : Nat
  deriving DecidableEq

def roundUp (offset align : Nat) : Nat := (offset + align - 1) / align * align

/-- Where fields of these extents are put, from an offset on. -/
def offsetsFrom (offset : Nat) : List Extent → List Nat
  | [] => []
  | extent :: extents =>
      roundUp offset extent.align :: offsetsFrom (roundUp offset extent.align + extent.size) extents

/-- Where the last of the fields ends. -/
def endFrom (offset : Nat) : List Extent → Nat
  | [] => offset
  | extent :: extents => endFrom (roundUp offset extent.align + extent.size) extents

/-- A struct is aligned as its fields are, and its size is a multiple of that. -/
def structExtent (extents : List Extent) : Extent :=
  let align := extents.foldl (fun align extent => max align extent.align) 1
  ⟨roundUp (endFrom 0 extents) align, align⟩

abbrev Declared := Text → Option Extent

/-- The target has 8-byte `long`, `double`, `size_t` and pointers, and 4-byte `int`. -/
def CType.extent (declared : Declared) : CType → Option Extent
  | .int => some ⟨4, 4⟩
  | .named name => declared name
  | .double | .long | .sizeT | .charPointer | .pointer _ _ => some ⟨8, 8⟩

def Declaration.extents (declared : Declared) (declaration : Declaration) :
    Option (List Extent) :=
  declaration.fields.mapM fun field => field.1.extent declared

/-- A declaration is valid if its name is new and each struct that is used by value is declared. -/
def Declaration.declare (declaration : Declaration) (declared : Declared) : Option Declared :=
  if (declared declaration.name).isSome then none
  else (declaration.extents declared).map fun extents =>
    Function.update declared declaration.name (some (structExtent extents))

/-- Declarations one after the other. -/
def declareAll (declarations : List Declaration) : Option Declared :=
  declarations.foldlM (fun declared declaration => declaration.declare declared) fun _ => none

theorem declareAll_concat (declarations : List Declaration) (declaration : Declaration) :
    declareAll (declarations ++ [declaration]) =
      (declareAll declarations).bind declaration.declare := by
  unfold declareAll
  rw [List.foldlM_append]
  apply congrArg
  funext declared
  exact bind_pure (declaration.declare declared)

theorem le_roundUp (offset align : Nat) (positive : 0 < align) : offset ≤ roundUp offset align := by
  have split := Nat.div_add_mod (offset + align - 1) align
  have below := Nat.mod_lt (offset + align - 1) positive
  rw [Nat.mul_comm] at split
  unfold roundUp
  omega

theorem le_endFrom (extents : List Extent) (positive : ∀ extent ∈ extents, 0 < extent.align) :
    ∀ offset, offset ≤ endFrom offset extents := by
  induction extents with
  | nil => exact fun offset => le_refl offset
  | cons extent extents ih =>
      intro offset
      have placed := le_roundUp offset extent.align (positive extent List.mem_cons_self)
      have rest := ih (fun other member =>
        positive other (List.mem_cons_of_mem _ member)) (roundUp offset extent.align + extent.size)
      exact placed.trans ((Nat.le_add_right _ _).trans rest)

theorem lastWord_eq (front : Text) {name : Text} (noSpace : ' ' ∉ name) :
    (front ++ '}' :: ' ' :: (name ++ [';', '\n'])).reverse.takeWhile (· ≠ ' ') =
      ['\n', ';'] ++ name.reverse := by
  have shape : (front ++ '}' :: ' ' :: (name ++ [';', '\n'])).reverse =
      (['\n', ';'] ++ name.reverse) ++ ' ' :: '}' :: front.reverse := by
    simp only [List.reverse_append, List.reverse_cons, List.reverse_nil, List.nil_append,
      List.append_assoc, List.cons_append]
  have stops : ∀ rest : Text, (' ' :: rest).takeWhile (· ≠ ' ') = [] := fun _ => rfl
  rw [shape, List.takeWhile_append_of_pos, stops, List.append_nil]
  intro char member
  rw [decide_eq_true_eq]
  rintro rfl
  simp only [List.cons_append, List.nil_append, List.mem_cons, List.mem_reverse] at member
  obtain isLine | isSemicolon | inName := member
  · exact absurd isLine (by decide)
  · exact absurd isSemicolon (by decide)
  · exact noSpace inName

/-- The name of a declaration can be read off a text that ends with it: it is the last word. -/
theorem name_eq_of_text_append_eq {front : Text} {one other : Declaration}
    (noSpace : ' ' ∉ one.name) (noSpace' : ' ' ∉ other.name)
    (same : front ++ one.text = other.text) : one.name = other.name := by
  have first := lastWord_eq
    (front ++ typedefBody (one.fields.map fun field => (field.1.text, field.2))) noSpace
  have second := lastWord_eq
    (typedefBody (other.fields.map fun field => (field.1.text, field.2))) noSpace'
  rw [Declaration.text, Declaration.text, typedefText, typedefText, ← List.append_assoc] at same
  rw [same, second] at first
  exact (List.reverse_injective (List.append_cancel_left first)).symm

end Rayzor.CStructs
