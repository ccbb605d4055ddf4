import Rayzor.Interp.Memory
import Rayzor.Interp.Operators

/-!
Contract: direct calls as the decoder lays them out.

Owns: how a callee is found, how each argument is coerced, widened and padded,
the runtime functions that are computed in place, and what the result register
receives.
-/

namespace Rayzor.Interp

open Ir

/-- A callee's entry in one of the module's two tables. The extern table wins. -/
structure Callee where
  name : String
  signature : IrFunctionSignature
  inExternTable : Bool
  isExtern : Bool
  externalLinkage : Bool

def calleeOf (module : IrModule) (func : IrFunctionId) : Option Callee :=
  match module.externFunctions.get? func with
  | some ext =>
      some { name := ext.name, signature := ext.signature, inExternTable := true,
             isExtern := true, externalLinkage := true }
  | none =>
      (module.functions.get? func).map fun f =>
        { name := f.name, signature := f.signature, inExternTable := false,
          isExtern := f.isExtern, externalLinkage := f.externalLinkage }

namespace Callee

def isC (callee : Callee) : Bool := callee.signature.callingConvention == .c

/-- The machine types the callee declares, after the C ABI's widening. -/
def declaredMts (callee : Callee) : List Mt :=
  callee.signature.parameters.map fun param =>
    let plain := (Mt.of param.ty).getD .i64
    if callee.inExternTable then
      if callee.isC ∧ (param.ty = .i32 ∨ param.ty = .u32) then .i64 else plain
    else if callee.isExtern ∧ callee.isC ∧
        (param.ty = .i32 ∨ param.ty = .u32 ∨ param.ty = .bool ∨ param.ty = .i8) then .i64
    else plain

/-- The coercion of the argument at `index`, held at `source`. -/
def argConv (callee : Callee) (index : Nat) (source : Mt) : Option Conv :=
  let param := (callee.signature.parameters[index]?).map (·.ty)
  if callee.inExternTable then
    if callee.isC then
      if (source = .i32 ∨ source = .i8) ∧ callee.declaredMts[index]? = some .i64 then
        some (.sext source .i64)
      else if param = some .f64 ∧ (source = .i32 ∨ source = .i64) then some (.sToF source .f64)
      else if param = some .f32 ∧ (source = .i32 ∨ source = .i64) then some (.sToF source .f32)
      else none
    else none
  else
    match param with
    | some ty =>
        if callee.isC ∧ (callee.isExtern ∨ callee.externalLinkage) then
          cExternArgCoercion source ty
        else haxeArgCoercion source ((Mt.of ty).getD .i64)
    | none => haxeArgCoercion source .i64

/-- The bits a missing trailing argument reads as. -/
def missingBits (callee : Callee) (param : IrParameter) : BitVec 64 :=
  if callee.inExternTable then 0 else if param.ty = .nullInt then NULL_INT else 0

/-- A struct comes back through memory. -/
def returnsSlot (callee : Callee) : Bool :=
  !callee.inExternTable && callee.signature.usesSret && !callee.isExtern

end Callee

def coerceArgs (callee : Callee) : Nat → List Word → Except Fault (List Word)
  | _, [] => .ok []
  | index, word :: rest => do
      let word ← coerce (callee.argConv index word.mt) word
      let rest ← coerceArgs callee (index + 1) rest
      .ok (word :: rest)

/-- `pad`: the arguments as they cross, and zero for each missing trailing one. -/
def crossing (callee : Callee) (args : List Word) : List (BitVec 64 × Mt) :=
  let missing := (callee.signature.parameters.zip callee.declaredMts).drop args.length
  args.map (fun word => (canon word.bits word.mt, word.mt)) ++
    missing.map fun entry => (canon (callee.missingBits entry.1) entry.2, entry.2)

def callArgs (callee : Callee) (args : List Word) : Except Fault (List (BitVec 64 × Mt)) := do
  if callee.inExternTable = false ∧ callee.signature.parameters.length < args.length then
    .error .tooManyArguments
  else
    let args ← coerceArgs callee 0 args
    .ok (crossing callee args)

/-- What the result register receives when the callee hands back `bits`; `slot`
is where a returned struct was put. -/
def deliver (callee : Callee) (destTy : Option IrType) (slot bits : BitVec 64) :
    Except Fault Word :=
  let returnType := callee.signature.returnType
  if callee.returnsSlot ∧ returnType ≠ .void then .ok ⟨.i64, slot⟩
  else match Mt.of returnType with
    | none => .ok (zeroFor destTy)
    | some mt =>
        coerce (if callee.inExternTable then none else resultConv returnType destTy)
          ⟨mt, canon bits mt⟩

inductive Intrinsic where
  | math (kind : MathKind)
  | stdInt
  | arrayLength
  | arrayGetPtr

def intrinsicNamed (name : String) : Option Intrinsic :=
  if name = "haxe_math_sqrt" then some (.math .sqrt)
  else if name = "haxe_math_abs" then some (.math .abs)
  else if name = "haxe_math_floor" then some (.math .floor)
  else if name = "haxe_math_ceil" then some (.math .ceil)
  else if name = "haxe_math_round" then some (.math .round)
  else if name = "haxe_std_int" then some .stdInt
  else if name = "haxe_array_length" then some .arrayLength
  else if name = "haxe_array_get_ptr" then some .arrayGetPtr
  else none

/-- The intrinsic a call is computed as, if its arguments fit. -/
def Callee.intrinsic (callee : Callee) (args : List Word) : Option Intrinsic :=
  if callee.isExtern then
    match intrinsicNamed callee.name, args with
    | some (.math kind), [word] =>
        if word.mt.isFloat ∨ word.mt = .i32 ∨ word.mt = .i64 then some (.math kind) else none
    | some .stdInt, [_] => some .stdInt
    | some .arrayLength, [_] => some .arrayLength
    | some .arrayGetPtr, [_, _] => some .arrayGetPtr
    | _, _ => none
  else none

/-- The address of an element: `data + index * elem_size`, with no check. -/
def arrayGetPtr (memory : Memory) (array : BitVec 64) (index : Word) :
    Except Fault (BitVec 64) := do
  let data ← read memory array .i64
  let elem ← read memory (array + 24) .i64
  .ok (data + sext index.bits index.mt * elem)

def mathWord {E : Type} (host : Host E) (kind : MathKind) (word : Word) : Except Fault Word := do
  let arg ← coerce (if word.mt.isFloat then none else some (.sToF word.mt .f64)) word
  let result := match kind with
    | .sqrt | .abs => arg.mt
    | _ => Mt.i32
  .ok ⟨result, host.math kind arg.mt arg.bits⟩

def stdIntWord (word : Word) : Except Fault Word :=
  coerce (if word.mt.isFloat then some (.fToSSat word.mt .i32)
    else if word.mt = .i64 then some (.reduce .i32)
    else none) word

/-- Without a result register only the `Math` functions run at all. -/
def runIntrinsic {E : Type} (host : Host E) (memory : Memory) (intrinsic : Intrinsic)
    (wanted : Bool) (args : List Word) : Except Fault (Option Word) :=
  match intrinsic, args with
  | .math kind, [word] => do .ok (some (← mathWord host kind word))
  | .stdInt, [word] => if wanted then do .ok (some (← stdIntWord word)) else .ok none
  | .arrayLength, [array] =>
      if wanted then do .ok (some ⟨.i64, ← read memory (array.bits + 8) .i64⟩) else .ok none
  | .arrayGetPtr, [array, index] =>
      if wanted then do .ok (some ⟨.i64, ← arrayGetPtr memory array.bits index⟩) else .ok none
  | _, _ => .ok none

end Rayzor.Interp
