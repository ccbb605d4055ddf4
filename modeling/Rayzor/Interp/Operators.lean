import Rayzor.Interp.Words
import Rayzor.Ir.Blocks

/-!
Contract: what an arithmetic, comparison or conversion instruction decodes to
and computes, given the type it resolves to and the words it reads.

Owns: the type lookups of the decoder, `binop`, `unop`, `cmp`, the two casts,
constants, and the coercions at phi edges, calls and returns.
-/

namespace Rayzor.Interp

open Ir Library

/-! ### Types an instruction resolves to -/

def regType (function : IrFunction) (reg : IrId) : Option IrType :=
  function.registerTypes.get? reg

def localType (function : IrFunction) (reg : IrId) : Option IrType :=
  (function.locals.get? reg).map (·.ty)

/-- The first phi, in block order, defining any of `regs`. -/
def phiType (function : IrFunction) (regs : List IrId) : Option IrType :=
  ((function.cfg.blocks.values.flatMap (·.phiNodes)).find? fun phi =>
    regs.contains phi.dest).map (·.ty)

def binopType (function : IrFunction) (dest left right : IrId) : Option IrType :=
  regType function dest <|> regType function left <|> regType function right <|>
    localType function dest <|> phiType function [left, right]

def unopType (function : IrFunction) (dest operand : IrId) : Option IrType :=
  regType function dest <|> regType function operand <|> localType function dest <|>
    phiType function [operand]

def cmpType (function : IrFunction) (left : IrId) : Option IrType :=
  regType function left <|> localType function left <|> phiType function [left]

def isSigned : IrType → Bool
  | .i8 | .i16 | .i32 | .i64 => true
  | _ => false

def isUnsigned : IrType → Bool
  | .u8 | .u16 | .u32 | .u64 => true
  | _ => false

def isPrimitiveInt (ty : IrType) : Bool := isSigned ty || isUnsigned ty || ty == .bool

def intRegisterMt : Option IrType → Mt
  | some .i8 | some .u8 | some .bool => .i8
  | some .i16 | some .u16 => .i16
  | some .i32 | some .u32 => .i32
  | _ => .i64

/-- Integer-to-integer resize. -/
def resize (source target : Mt) (signed : Bool) : Option Conv :=
  if source = target ∨ source.isInt = false ∨ target.isInt = false then none
  else if target.bits < source.bits then some (.reduce target)
  else if signed then some (.sext source target)
  else some (.uext source target)

/-! ### Binary operations -/

def integerOnly : BinaryOp → Bool
  | .and | .or | .xor | .shl | .shr | .ushr => true
  | _ => false

def floatNamed : BinaryOp → Bool
  | .fadd | .fsub | .fmul | .fdiv | .frem => true
  | _ => false

def expectedMt : IrType → Mt
  | .i32 | .u32 | .bool => .i32
  | .f32 => .f32
  | .f64 => .f64
  | _ => .i64

def largerMt (left right : Mt) : Mt := if right.bits ≤ left.bits then left else right

/-- The type the operands are brought to. -/
def operationMt (op : BinaryOp) (expected left right : Mt) : Mt :=
  let bothInt := left.isInt && right.isInt
  let larger := largerMt left right
  if integerOnly op then
    let operand :=
      if bothInt then larger
      else if left.isInt then left
      else if right.isInt then right
      else if expected.isInt then expected
      else .i32
    if expected.isInt ∧ operand.bits < expected.bits then expected else operand
  else if bothInt ∧ expected.isInt = false then larger
  else if larger.isInt ∧ expected.isInt ∧ expected.bits < larger.bits then larger
  else expected

def usesFloat (op : BinaryOp) (opTy left right : Mt) : Bool :=
  !integerOnly op && (left.isFloat || right.isFloat || opTy.isFloat || floatNamed op)

def operandConv (op : BinaryOp) (ty : IrType) (opTy : Mt) (useFloat : Bool) (operand other : Mt) :
    Option Conv :=
  let signed := isSigned ty
  let signedCoercion := op == .shr || signed || !isUnsigned ty
  if integerOnly op then
    if operand = opTy then none
    else if operand.isFloat then
      some (if signedCoercion then .fToS operand opTy else .fToU operand opTy)
    else resize operand opTy signedCoercion
  else if useFloat ∧ operand.isInt then
    let floatTy := if other.isFloat then other else .f64
    some (if signed ∨ operand = .i32 ∨ operand = .i64 then .sToF operand floatTy
      else .uToF operand floatTy)
  else if operand ≠ opTy ∧ operand.isInt ∧ opTy.isInt then
    some (if signed then .sext operand opTy else .uext operand opTy)
  else none

def floatOp : BinaryOp → FloatOp
  | .add | .fadd => .add
  | .sub | .fsub => .sub
  | .mul | .fmul => .mul
  | .div | .fdiv => .div
  | _ => .rem

def intOp (signed : Bool) : BinaryOp → IntOp
  | .add | .fadd => .add
  | .sub | .fsub => .sub
  | .mul | .fmul => .mul
  | .div | .fdiv => if signed then .sdiv else .udiv
  | .rem | .frem => if signed then .srem else .urem
  | .and => .and
  | .or => .or
  | .xor => .xor
  | .shl => .shl
  | .shr => .sshr
  | .ushr => .ushr

def finalConv (signed : Bool) (result expected : Mt) : Option Conv :=
  if result.isFloat ∧ expected.isInt then
    some (if signed then .fToS result expected else .fToU result expected)
  else if result.isInt ∧ expected.isInt ∧ result ≠ expected then
    if result.bits < expected.bits then
      some (if signed then .sext result expected else .uext result expected)
    else some (.reduce expected)
  else none

/-- Promote the narrower of two floats; the wider one decides. -/
def widen (mt : Mt) (word : Word) : Except Fault Word :=
  coerce (if word.mt = mt then none else some .fPromote) word

def binop (ty : IrType) (op : BinaryOp) (left right : Word) : Except Fault Word := do
  if left.mt = .v128 ∨ right.mt = .v128 then .error .vectorCode
  else
    let expected := expectedMt ty
    let opTy := operationMt op expected left.mt right.mt
    let useFloat := usesFloat op opTy left.mt right.mt
    let signed := isSigned ty
    let a ← coerce (operandConv op ty opTy useFloat left.mt right.mt) left
    let b ← coerce (operandConv op ty opTy useFloat right.mt left.mt) right
    if useFloat ∧ a.mt.isFloat ∧ b.mt.isFloat then
      let mt := if a.mt = .f64 ∨ b.mt = .f64 then Mt.f64 else .f32
      let a ← widen mt a
      let b ← widen mt b
      coerce (finalConv signed mt expected) ⟨mt, fbin (floatOp op) mt a.bits b.bits⟩
    else
      let mt := if a.mt.isInt then a.mt else opTy
      let bits ← ibin (intOp signed op) mt a.bits b.bits
      coerce (finalConv signed mt expected) ⟨mt, bits⟩

theorem finalConv_target (signed : Bool) {result expected : Mt} (scalar : result ≠ .v128)
    (integer : expected.isInt = true) :
    ((finalConv signed result expected).map Conv.target).getD result = expected := by
  cases result <;> cases expected <;> cases signed <;>
    first
      | exact absurd rfl scalar
      | exact absurd integer (by decide)
      | rfl

theorem operationMt_scalar (op : BinaryOp) (ty : IrType) {left right : Mt}
    (leftScalar : left ≠ .v128) (rightScalar : right ≠ .v128) :
    operationMt op (expectedMt ty) left right ≠ .v128 := by
  have expected : expectedMt ty ≠ .v128 := by cases ty <;> simp [expectedMt]
  simp only [operationMt, largerMt]
  split_ifs <;> first | assumption | simp

theorem operandConv_scalar {op : BinaryOp} {ty : IrType} {opTy operand other : Mt}
    {useFloat : Bool} (opScalar : opTy ≠ .v128) (scalar : operand ≠ .v128) :
    ((operandConv op ty opTy useFloat operand other).map Conv.target).getD operand ≠ .v128 := by
  have otherFloat : other.isFloat = true → other ≠ .v128 := by rintro float rfl; cases float
  simp only [operandConv, resize]
  split_ifs <;> simp_all [Conv.target]

theorem binop_mt {ty : IrType} {op : BinaryOp} {left right result : Word}
    (integer : (expectedMt ty).isInt = true) (computed : binop ty op left right = .ok result) :
    result.mt = expectedMt ty := by
  unfold binop at computed
  split at computed
  · cases computed
  rename_i vector
  simp only [not_or] at vector
  have opScalar := operationMt_scalar op ty vector.1 vector.2
  obtain ⟨a, leftConverted, computed⟩ := bind_eq_ok.mp computed
  obtain ⟨b, -, computed⟩ := bind_eq_ok.mp computed
  have leftScalar : a.mt ≠ .v128 := by
    rw [coerce_mt leftConverted]
    exact operandConv_scalar opScalar vector.1
  split at computed
  · obtain ⟨_, -, computed⟩ := bind_eq_ok.mp computed
    obtain ⟨_, -, computed⟩ := bind_eq_ok.mp computed
    rw [coerce_mt computed]
    apply finalConv_target _ _ integer
    split_ifs <;> decide
  · obtain ⟨bits, -, computed⟩ := bind_eq_ok.mp computed
    rw [coerce_mt computed]
    apply finalConv_target _ _ integer
    split_ifs
    · exact leftScalar
    · exact opScalar

def evalBinop (function : IrFunction) (dest : IrId) (op : BinaryOp) (left right : IrId)
    (leftWord rightWord : Word) : Except Fault Word :=
  match binopType function dest left right with
  | none => .error .typeNotFound
  | some ty => binop ty op leftWord rightWord

/-! ### Unary operations -/

def negate (word : Word) : Word := ⟨word.mt, canon (-word.bits) word.mt⟩

def negateFloat (word : Word) : Word :=
  ⟨word.mt, word.bits ^^^ (if word.mt = .f32 then 1 <<< 31 else 1 <<< 63)⟩

def unop (ty : IrType) (op : UnaryOp) (operand : Word) : Except Fault Word := do
  let tyFloat := ty == .f32 || ty == .f64
  let conv :=
    if (op = .neg ∨ op = .fneg) ∧ tyFloat then
      let floatTy := if ty = .f32 then Mt.f32 else .f64
      if operand.mt.isInt then some (Conv.sToF operand.mt floatTy)
      else if operand.mt = .f32 ∧ floatTy = .f64 then some .fPromote
      else if operand.mt = .f64 ∧ floatTy = .f32 then some .fDemote
      else none
    else none
  let word ← coerce conv operand
  match op with
  | .neg => .ok (if tyFloat then negateFloat word else negate word)
  | .not =>
      .ok (if ty = .bool then ⟨.i8, if word.bits = 0 then 1 else 0⟩
        else ⟨word.mt, canon (~~~word.bits) word.mt⟩)
  | .fneg => .ok (negateFloat word)

/-! ### Comparisons -/

def isFloatCompare : CompareOp → Bool
  | .feq | .fne | .flt | .fle | .fgt | .fge | .ford | .funo => true
  | _ => false

def floatCc : CompareOp → Option FloatCc
  | .eq | .feq => some .eq
  | .ne | .fne => some .ne
  | .lt | .flt => some .lt
  | .le | .fle => some .le
  | .gt | .fgt => some .gt
  | .ge | .fge => some .ge
  | .ford => some .ord
  | .funo => some .uno
  | _ => none

def intCc : CompareOp → Option IntCc
  | .eq => some .eq
  | .ne => some .ne
  | .lt => some .slt
  | .le => some .sle
  | .gt => some .sgt
  | .ge => some .sge
  | .ult => some .ult
  | .ule => some .ule
  | .ugt => some .ugt
  | .uge => some .uge
  | _ => none

def truth (value : Bool) : Word := ⟨.i8, if value then 1 else 0⟩

def cmp (ty : IrType) (op : CompareOp) (left right : Word) : Except Fault Word := do
  if (left.mt.isFloat ∧ right.mt.isFloat) ∨
      (isFloatCompare op ∧ (left.mt.isFloat ∨ right.mt.isFloat)) then
    let a ← coerce (if left.mt.isInt ∧ right.mt.isFloat then some (.sToF left.mt right.mt)
      else none) left
    let b ← coerce (if left.mt.isFloat ∧ right.mt.isInt then some (.sToF right.mt left.mt)
      else none) right
    let mt := if a.mt = .f64 ∨ b.mt = .f64 then Mt.f64 else .f32
    let a ← widen mt a
    let b ← widen mt b
    match floatCc op with
    | some cc => .ok (truth (fcmp cc mt a.bits b.bits))
    | none => .error .invalidComparison
  else
    let a ← coerce (if left.mt.isFloat then some (.fToSSat left.mt .i64) else none) left
    let b ← coerce (if right.mt.isFloat then some (.fToSSat right.mt .i64) else none) right
    let signed := isSigned ty
    let differ := a.mt ≠ b.mt ∧ a.mt.isInt ∧ b.mt.isInt
    let wider := b.mt.bits < a.mt.bits
    let b' ← coerce (if differ ∧ wider then resize b.mt a.mt signed else none) b
    let a' ← coerce (if differ ∧ ¬wider then resize a.mt b.mt signed else none) a
    match intCc op with
    | some cc => .ok (truth (icmp cc a'.mt a'.bits b'.bits))
    | none => .error .invalidComparison

def evalCmp (function : IrFunction) (op : CompareOp) (left : IrId)
    (leftWord rightWord : Word) : Except Fault Word :=
  match cmpType function left with
  | none => .error .typeNotFound
  | some ty => cmp ty op leftWord rightWord

/-! ### Casts -/

def castConv (source : Mt) (fromTy : IrType) (target : Mt) : Except Fault (Option Conv) :=
  if source = target then .ok none
  else match source, target with
    | .i32, .f64 | .i32, .f32 | .i64, .f64 | .i64, .f32 => .ok (some (.sToF source target))
    | .f64, .i32 | .f64, .i64 | .f32, .i32 | .f32, .i64 => .ok (some (.fToS source target))
    | .f32, .f64 => .ok (some .fPromote)
    | .f64, .f32 => .ok (some .fDemote)
    | .i8, .f32 | .i8, .f64 => .ok (some (.sToF .i8 target))
    | .i32, .i64 => .ok (some (if fromTy = .u32 then .uext .i32 .i64 else .sext .i32 .i64))
    | .i64, .i32 => .ok (some (.reduce .i32))
    | .i8, .i32 | .i8, .i64 => .ok (some (.uext .i8 target))
    | .i32, .i8 | .i64, .i8 => .ok (some (.reduce .i8))
    | _, _ => .error .unsupportedCast

def cast (fromTy toTy : IrType) (word : Word) : Except Fault Word :=
  match Mt.of toTy with
  | none => .error .voidType
  | some target => do
      let conv ← castConv word.mt fromTy target
      coerce conv word

def bitCastConv (source target : Mt) : Except Fault (Option Conv) :=
  match source, target with
  | .f64, .i64 | .f32, .i32 | .i64, .f64 | .i32, .f32 => .ok (some (.reinterpret target))
  | .i32, .i64 => .ok (some (.sext .i32 .i64))
  | .i64, .i32 => .ok (some (.reduce .i32))
  | a, b =>
      if a.isInt ∧ b.isInt ∧ a.bits < b.bits then .ok (some (.uext a b))
      else if a.isInt ∧ b.isInt ∧ b.bits < a.bits then .ok (some (.reduce b))
      else if a = b then .ok none
      else .error .unsupportedBitCast

def bitCast (ty : IrType) (word : Word) : Except Fault Word :=
  match Mt.of ty with
  | none => .error .voidType
  | some target => do
      let conv ← bitCastConv word.mt target
      coerce conv word

/-! ### Constants -/

/-- The word of a constant that needs nothing from the runtime. -/
def constantWord : IrValue → Option Word
  | .i8 value => some ⟨.i8, value.setWidth 64⟩
  | .u8 value => some ⟨.i8, value.setWidth 64⟩
  | .bool value => some (truth value)
  | .i16 value => some ⟨.i16, value.setWidth 64⟩
  | .u16 value => some ⟨.i16, value.setWidth 64⟩
  | .i32 value => some ⟨.i32, value.setWidth 64⟩
  | .u32 value => some ⟨.i32, value.setWidth 64⟩
  | .i64 value => some ⟨.i64, value⟩
  | .u64 value => some ⟨.i64, value⟩
  | .f32 bits => some ⟨.f32, bits.setWidth 64⟩
  | .f64 bits => some ⟨.f64, bits⟩
  | .null => some ⟨.i64, 0⟩
  | _ => none

def undefWord (ty : IrType) : Word :=
  if ty = .nullInt then ⟨.i64, NULL_INT⟩
  else match Mt.of ty with
    | some .v128 | none => ⟨.i64, 0⟩
    | some mt => ⟨mt, 0⟩

/-- What a register named for a callee that returns nothing reads as. -/
def zeroFor (ty : Option IrType) : Word := (ty.map undefWord).getD ⟨.i64, 0⟩

/-! ### Coercions at edges, calls and returns -/

/-- Conversions of a phi argument to its block parameter type, in order. -/
def phiCoercion (source target : Mt) : List Conv :=
  if source = target then []
  else match source, target with
    | .i64, .i32 | .i64, .i8 | .i32, .i8 => [.reduce target]
    | .i32, .i64 | .i8, .i32 | .i8, .i64 => [.sext source target]
    | .i8, .f32 | .i8, .f64 | .i32, .f32 | .i32, .f64 | .i64, .f32 | .i64, .f64 =>
        [.sToF source target]
    | .f32, .i8 | .f64, .i8 => [.fToS source .i32, .reduce .i8]
    | .f32, .i32 | .f32, .i64 | .f64, .i32 | .f64, .i64 => [.fToS source target]
    | .f32, .f64 => [.fPromote]
    | .f64, .f32 => [.fDemote]
    | _, _ => [.reinterpret target]

def convert (convs : List Conv) (bits : BitVec 64) : Except Fault (BitVec 64) :=
  convs.foldlM (fun acc conv => conv.apply acc) bits

def phiWord (ty : IrType) (word : Word) : Except Fault Word := do
  let bits ← convert (phiCoercion word.mt (Mt.phi ty)) word.bits
  .ok ⟨Mt.phi ty, bits⟩

/-- Coercion of an argument to a Haxe-ABI callee's parameter. -/
def haxeArgCoercion (source target : Mt) : Option Conv :=
  match source, target with
  | .i32, .i64 => some (.sext .i32 .i64)
  | .i64, .i32 => some (.reduce .i32)
  | .i32, .f64 | .i32, .f32 | .i64, .f64 | .i64, .f32 => some (.sToF source target)
  | .f64, .i64 | .f64, .i32 => some (.fToS .f64 target)
  | _, _ => none

/-- Integer promotion of an argument to a C extern. -/
def cExternArgCoercion (source : Mt) (param : IrType) : Option Conv :=
  match source with
  | .i32 | .i8 =>
      match param with
      | .i32 | .i64 | .nullInt | .bool => some (.sext source .i64)
      | .u32 | .u64 => some (.uext source .i64)
      | .f64 => some (.sToF source .f64)
      | .f32 => some (.sToF source .f32)
      | _ => none
  | .i64 =>
      match param with
      | .f64 => some (.sToF .i64 .f64)
      | .f32 => some (.sToF .i64 .f32)
      | _ => none
  | _ => none

/-- Coercion of a closure-call argument to the call-site signature. -/
def indirectArgCoercion (source target : Mt) : Option Conv :=
  if source = target then none
  else if source.isInt ∧ target.isInt then
    if source.bits < target.bits then
      some (if source = .i8 then .uext source target else .sext source target)
    else some (.reduce target)
  else if source.isInt ∧ target.isFloat then some (.sToF source target)
  else if source = .f32 ∧ target = .f64 then some .fPromote
  else if source = .f64 ∧ target = .f32 then some .fDemote
  else none

def returnWord (returnType : IrType) (word : Word) : Except Fault Word :=
  coerce (match word.mt, Mt.of returnType with
    | .i64, some .i32 => some (.reduce .i32)
    | .i32, some .i64 => some (.sext .i32 .i64)
    | _, _ => none) word

/-- How a call's integer result resizes to its register. -/
def resultConv (returnType : IrType) (destTy : Option IrType) : Option Conv :=
  let retMt := (Mt.of returnType).getD .i64
  let expected := intRegisterMt destTy
  if isPrimitiveInt returnType ∧ (destTy.any isPrimitiveInt) ∧ retMt ≠ expected ∧ retMt.isInt then
    if expected.bits < retMt.bits then some (.reduce expected) else some (.sext retMt expected)
  else none

end Rayzor.Interp
