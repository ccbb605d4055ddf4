import Rayzor.Ir.Types

/-!
Contract: the instruction set, with the operand queries and the rewrite
every pass is built from.

Owns: `IrInstruction`, its destination and operands, and
`replaceUses` with exactly the operand kinds it covers, and how a full
renaming of the operands relates to the two.

Does not own: what an instruction computes. Ownership and lifetime marks, debug
positions, vector lane types and inline assembly text are left out: nothing
modelled here reads them.
-/

namespace Rayzor.Ir

inductive BinaryOp where
  | add
  | sub
  | mul
  | div
  | rem
  | and
  | or
  | xor
  | shl
  | shr
  | ushr
  | fadd
  | fsub
  | fmul
  | fdiv
  | frem
  deriving DecidableEq

inductive UnaryOp where
  | neg
  | not
  | fneg
  deriving DecidableEq

inductive CompareOp where
  | eq
  | ne
  | lt
  | le
  | gt
  | ge
  | ult
  | ule
  | ugt
  | uge
  | feq
  | fne
  | flt
  | fle
  | fgt
  | fge
  | ford
  | funo
  deriving DecidableEq

inductive AtomicRmwOp where
  | add
  | sub
  | and
  | or
  | xor
  | xchg
  deriving DecidableEq

inductive IrInstruction where
  | const (dest : IrId) (value : IrValue)
  | copy (dest src : IrId)
  | ssaBarrier (dest src : IrId) (ty : IrType)
  | move (dest src : IrId)
  | markMoved (src : IrId)
  | checkLive (src : IrId) (line : Nat)
  | borrowImmutable (dest src : IrId)
  | borrowMutable (dest src : IrId)
  | clone (dest src : IrId)
  | endBorrow (borrow : IrId)
  | load (dest ptr : IrId) (ty : IrType)
  | store (ptr value : IrId) (storeTy : Option IrType)
  | loadGlobal (dest : IrId) (globalId : IrGlobalId) (ty : IrType)
  | storeGlobal (globalId : IrGlobalId) (value : IrId)
  | binOp (dest : IrId) (op : BinaryOp) (left right : IrId)
  | unOp (dest : IrId) (op : UnaryOp) (operand : IrId)
  | cmp (dest : IrId) (op : CompareOp) (left right : IrId)
  | jump (target : IrId)
  | branch (condition trueTarget falseTarget : IrId)
  | switch (value defaultTarget : IrId) (cases : List (IrValue × IrId))
  | callDirect (dest : Option IrId) (funcId : IrFunctionId) (args : List IrId)
      (typeArgs : List IrType)
  | callIndirect (dest : Option IrId) (funcPtr : IrId) (args : List IrId) (signature : IrType)
  | returnValue (value : Option IrId)
  | alloc (dest : IrId) (ty : IrType) (count : Option IrId)
  | free (ptr : IrId)
  | getElementPtr (dest ptr : IrId) (indices : List IrId) (ty : IrType)
  | memCopy (dest src size : IrId)
  | memSet (dest value size : IrId)
  | cast (dest src : IrId) (fromTy toTy : IrType)
  | bitCast (dest src : IrId) (ty : IrType)
  | throw (exception : IrId)
  | landingPad (dest : IrId)
  | resume (exception : IrId)
  | phi (dest : IrId) (incoming : List (IrId × IrId))
  | select (dest condition trueVal falseVal : IrId)
  | extractValue (dest aggregate : IrId) (indices : List Nat)
  | insertValue (dest aggregate value : IrId) (indices : List Nat)
  | makeClosure (dest : IrId) (funcId : IrFunctionId) (capturedValues : List IrId)
  | closureFunc (dest closure : IrId)
  | closureEnv (dest closure : IrId)
  | createUnion (dest : IrId) (discriminant : BitVec 32) (value : IrId)
  | extractDiscriminant (dest unionVal : IrId)
  | extractUnionValue (dest unionVal : IrId) (valueTy : IrType)
  | createStruct (dest : IrId) (ty : IrType) (fields : List IrId)
  | ptrAdd (dest ptr offset : IrId) (ty : IrType)
  | undef (dest : IrId) (ty : IrType)
  | functionRef (dest : IrId) (funcId : IrFunctionId)
  | panic (message : Option String)
  | debugLoc
  | inlineAsm (dest : Option IrId) (inputs : List IrId)
  | vectorLoad (dest ptr : IrId)
  | vectorStore (ptr value : IrId)
  | vectorBinOp (dest left right : IrId)
  | vectorSplat (dest scalar : IrId)
  | vectorExtract (dest vector : IrId)
  | vectorInsert (dest vector scalar : IrId)
  | vectorReduce (dest vector : IrId)
  | vectorUnaryOp (dest operand : IrId)
  | vectorMinMax (dest left right : IrId)
  | vectorDot (dest acc a b : IrId)
  | vectorShuffle (dest a idx : IrId)
  | atomicLoad (dest ptr : IrId) (ty : IrType)
  | atomicStore (ptr value : IrId)
  | atomicRmw (dest : IrId) (op : AtomicRmwOp) (ptr value : IrId) (ty : IrType)
  | atomicCas (dest ptr expected replacement : IrId)
  | vectorConvert (dest operand : IrId)
  | vectorNarrow (dest lo hi : IrId)
  | arrayHeader (dest array : IrId) (field : ArrayField) (guarded : Bool)

namespace IrInstruction

/-- The register an instruction reports as its result. For the two memory
block operations this is the pointer they write through. -/
def dest : IrInstruction → Option IrId
  | const dest _ | copy dest _ | ssaBarrier dest _ _ | move dest _ => some dest
  | borrowImmutable dest _ | borrowMutable dest _ | clone dest _ => some dest
  | load dest _ _ | loadGlobal dest _ _ => some dest
  | binOp dest _ _ _ | unOp dest _ _ | cmp dest _ _ _ => some dest
  | alloc dest _ _ | getElementPtr dest _ _ _ => some dest
  | memCopy dest _ _ | memSet dest _ _ => some dest
  | cast dest _ _ _ | bitCast dest _ _ | landingPad dest => some dest
  | phi dest _ | select dest _ _ _ => some dest
  | extractValue dest _ _ | insertValue dest _ _ _ => some dest
  | makeClosure dest _ _ | closureFunc dest _ | closureEnv dest _ => some dest
  | createUnion dest _ _ | extractDiscriminant dest _ | extractUnionValue dest _ _ => some dest
  | createStruct dest _ _ | ptrAdd dest _ _ _ | arrayHeader dest _ _ _ => some dest
  | undef dest _ | functionRef dest _ => some dest
  | vectorLoad dest _ | vectorBinOp dest _ _ | vectorSplat dest _ => some dest
  | vectorExtract dest _ | vectorInsert dest _ _ | vectorReduce dest _ => some dest
  | vectorUnaryOp dest _ | vectorMinMax dest _ _ | vectorDot dest _ _ _ => some dest
  | vectorShuffle dest _ _ | vectorConvert dest _ | vectorNarrow dest _ _ => some dest
  | atomicLoad dest _ _ | atomicRmw dest _ _ _ _ | atomicCas dest _ _ _ => some dest
  | callDirect dest _ _ _ | callIndirect dest _ _ _ | inlineAsm dest _ => dest
  | _ => none

/-- Every register an instruction reads. -/
def uses : IrInstruction → List IrId
  | copy _ src | ssaBarrier _ src _ | move _ src => [src]
  | markMoved src | checkLive src _ => [src]
  | borrowImmutable _ src | borrowMutable _ src | clone _ src => [src]
  | endBorrow borrow => [borrow]
  | load _ ptr _ => [ptr]
  | store ptr value _ => [ptr, value]
  | binOp _ _ left right | cmp _ _ left right => [left, right]
  | unOp _ _ operand => [operand]
  | branch condition _ _ => [condition]
  | switch value _ _ => [value]
  | callDirect _ _ args _ => args
  | callIndirect _ funcPtr args _ => funcPtr :: args
  | returnValue value => value.toList
  | alloc _ _ count => count.toList
  | free ptr => [ptr]
  | getElementPtr _ ptr indices _ => ptr :: indices
  | memCopy dest src size => [dest, src, size]
  | memSet dest value size => [dest, value, size]
  | cast _ src _ _ | bitCast _ src _ => [src]
  | throw exception | resume exception => [exception]
  | phi _ incoming => incoming.map Prod.fst
  | select _ condition trueVal falseVal => [condition, trueVal, falseVal]
  | extractValue _ aggregate _ => [aggregate]
  | insertValue _ aggregate value _ => [aggregate, value]
  | inlineAsm _ inputs => inputs
  | vectorLoad _ ptr => [ptr]
  | vectorStore ptr value => [ptr, value]
  | vectorBinOp _ left right | vectorMinMax _ left right => [left, right]
  | vectorSplat _ scalar => [scalar]
  | vectorExtract _ vector | vectorReduce _ vector => [vector]
  | vectorInsert _ vector scalar => [vector, scalar]
  | vectorUnaryOp _ operand | vectorConvert _ operand => [operand]
  | vectorDot _ acc a b => [acc, a, b]
  | vectorShuffle _ a idx => [a, idx]
  | vectorNarrow _ lo hi => [lo, hi]
  | atomicLoad _ ptr _ => [ptr]
  | atomicStore ptr value | atomicRmw _ _ ptr value _ => [ptr, value]
  | atomicCas _ ptr expected replacement => [ptr, expected, replacement]
  | makeClosure _ _ captured => captured
  | closureFunc _ closure | closureEnv _ closure => [closure]
  | createUnion _ _ value => [value]
  | extractDiscriminant _ unionVal | extractUnionValue _ unionVal _ => [unionVal]
  | createStruct _ _ fields => fields
  | ptrAdd _ ptr offset _ => [ptr, offset]
  | arrayHeader _ array _ _ => [array]
  | storeGlobal _ value => [value]
  | loadGlobal _ _ _ | const _ _ | jump _ | landingPad _ | undef _ _ | functionRef _ _
  | panic _ | debugLoc => []

/-- Rename the operands `replace_uses` looks at. The move, borrow, barrier,
union and structure kinds in the last arm keep theirs. -/
def renameUses (replace : IrId → IrId) : IrInstruction → IrInstruction
  | copy dest src => copy dest (replace src)
  | load dest ptr ty => load dest (replace ptr) ty
  | store ptr value storeTy => store (replace ptr) (replace value) storeTy
  | binOp dest op left right => binOp dest op (replace left) (replace right)
  | unOp dest op operand => unOp dest op (replace operand)
  | cmp dest op left right => cmp dest op (replace left) (replace right)
  | callDirect dest funcId args typeArgs => callDirect dest funcId (args.map replace) typeArgs
  | callIndirect dest funcPtr args signature =>
      callIndirect dest (replace funcPtr) (args.map replace) signature
  | cast dest src fromTy toTy => cast dest (replace src) fromTy toTy
  | bitCast dest src ty => bitCast dest (replace src) ty
  | select dest condition trueVal falseVal =>
      select dest (replace condition) (replace trueVal) (replace falseVal)
  | free ptr => free (replace ptr)
  | alloc dest ty count => alloc dest ty (count.map replace)
  | getElementPtr dest ptr indices ty =>
      getElementPtr dest (replace ptr) (indices.map replace) ty
  | memCopy dest src size => memCopy (replace dest) (replace src) (replace size)
  | memSet dest value size => memSet (replace dest) (replace value) (replace size)
  | ptrAdd dest ptr offset ty => ptrAdd dest (replace ptr) (replace offset) ty
  | arrayHeader dest array field guarded => arrayHeader dest (replace array) field guarded
  | makeClosure dest funcId captured => makeClosure dest funcId (captured.map replace)
  | closureFunc dest closure => closureFunc dest (replace closure)
  | extractValue dest aggregate indices => extractValue dest (replace aggregate) indices
  | insertValue dest aggregate value indices =>
      insertValue dest (replace aggregate) (replace value) indices
  | returnValue value => returnValue (value.map replace)
  | throw exception => throw (replace exception)
  | resume exception => resume (replace exception)
  | phi dest incoming => phi dest (incoming.map fun entry => (replace entry.1, entry.2))
  | branch condition trueTarget falseTarget => branch (replace condition) trueTarget falseTarget
  | switch value defaultTarget cases => switch (replace value) defaultTarget cases
  | inlineAsm dest inputs => inlineAsm dest (inputs.map replace)
  | closureEnv dest closure => closureEnv dest (replace closure)
  | vectorLoad dest ptr => vectorLoad dest (replace ptr)
  | vectorStore ptr value => vectorStore (replace ptr) (replace value)
  | vectorBinOp dest left right => vectorBinOp dest (replace left) (replace right)
  | vectorSplat dest scalar => vectorSplat dest (replace scalar)
  | vectorExtract dest vector => vectorExtract dest (replace vector)
  | vectorInsert dest vector scalar => vectorInsert dest (replace vector) (replace scalar)
  | vectorReduce dest vector => vectorReduce dest (replace vector)
  | vectorUnaryOp dest operand => vectorUnaryOp dest (replace operand)
  | vectorMinMax dest left right => vectorMinMax dest (replace left) (replace right)
  | vectorDot dest acc a b => vectorDot dest (replace acc) (replace a) (replace b)
  | vectorShuffle dest a idx => vectorShuffle dest (replace a) (replace idx)
  | vectorConvert dest operand => vectorConvert dest (replace operand)
  | vectorNarrow dest lo hi => vectorNarrow dest (replace lo) (replace hi)
  | atomicLoad dest ptr ty => atomicLoad dest (replace ptr) ty
  | atomicStore ptr value => atomicStore (replace ptr) (replace value)
  | atomicRmw dest op ptr value ty => atomicRmw dest op (replace ptr) (replace value) ty
  | atomicCas dest ptr expected replacement =>
      atomicCas dest (replace ptr) (replace expected) (replace replacement)
  | move dest src => move dest (replace src)
  | clone dest src => clone dest (replace src)
  | storeGlobal globalId value => storeGlobal globalId (replace value)
  | other => other

def replaceUses (replacements : Library.OrdMap IrId IrId) (inst : IrInstruction) :
    IrInstruction :=
  inst.renameUses fun id => (replacements.get? id).getD id

/-- The kinds whose operands `replace_uses` leaves alone. -/
def operandsKept : IrInstruction → Bool
  | ssaBarrier _ _ _ | markMoved _ | checkLive _ _ => true
  | borrowImmutable _ _ | borrowMutable _ _ | endBorrow _ => true
  | createUnion _ _ _ | extractDiscriminant _ _ | extractUnionValue _ _ _ => true
  | createStruct _ _ _ => true
  | _ => false

/-- The kinds that report a pointer they only read as their destination. -/
def destIsOperand : IrInstruction → Bool
  | memCopy _ _ _ | memSet _ _ _ => true
  | _ => false

/-- What running the instruction assigns. A `Phi` outside a block's phi list is
never run. -/
def writes : IrInstruction → Option IrId
  | memCopy _ _ _ | memSet _ _ _ | phi _ _ => none
  | inst => inst.dest

def hasSideEffects : IrInstruction → Bool
  | alloc _ _ _ | store _ _ _ | storeGlobal _ _ | callDirect _ _ _ _ | callIndirect _ _ _ _ => true
  | free _ | memCopy _ _ _ | memSet _ _ _ | throw _ | inlineAsm _ _ => true
  | atomicStore _ _ | atomicRmw _ _ _ _ _ | atomicCas _ _ _ _ | atomicLoad _ _ _ => true
  | _ => false

theorem uses_renameUses (replace : IrId → IrId) (inst : IrInstruction)
    (renamed : inst.operandsKept = false) :
    (inst.renameUses replace).uses = inst.uses.map replace := by
  cases inst <;> simp_all [renameUses, uses, operandsKept]
  all_goals (rename_i value; cases value <;> rfl)

theorem uses_renameUses_of_kept (replace : IrId → IrId) (inst : IrInstruction)
    (kept : inst.operandsKept = true) : inst.renameUses replace = inst := by
  cases inst <;> first | rfl | cases kept

theorem dest_renameUses (replace : IrId → IrId) (inst : IrInstruction)
    (ordinary : inst.destIsOperand = false) : (inst.renameUses replace).dest = inst.dest := by
  cases inst <;> first | rfl | cases ordinary

theorem writes_renameUses (replace : IrId → IrId) (inst : IrInstruction) :
    (inst.renameUses replace).writes = inst.writes := by
  cases inst <;> rfl

theorem renameUses_congr {first second : IrId → IrId} {inst : IrInstruction}
    (agree : ∀ reg ∈ inst.uses, first reg = second reg) :
    inst.renameUses first = inst.renameUses second := by
  cases inst
  all_goals simp only [uses, List.mem_cons, List.not_mem_nil, or_false, forall_eq_or_imp,
    forall_eq, Option.mem_toList, List.forall_mem_map] at agree
  case callDirect | inlineAsm | makeClosure =>
    simp only [renameUses, List.map_congr_left agree]
  case callIndirect | getElementPtr =>
    simp only [renameUses, agree.1, List.map_congr_left agree.2]
  case phi =>
    simp only [renameUses]
    refine congrArg _ (List.map_congr_left fun entry member => ?_)
    rw [agree entry member]
  case returnValue value | alloc _ _ value =>
    cases value with
    | none => rfl
    | some reg => simp only [renameUses, Option.map_some, agree reg rfl]
  all_goals simp only [renameUses, agree]

@[simp] theorem renameUses_id (inst : IrInstruction) : inst.renameUses (fun reg => reg) = inst := by
  cases inst <;> simp [renameUses]

theorem renameUses_comp (first second : IrId → IrId) (inst : IrInstruction) :
    (inst.renameUses first).renameUses second = inst.renameUses (second ∘ first) := by
  cases inst
  all_goals simp [renameUses, Function.comp_def]

theorem operandsKept_renameUses (replace : IrId → IrId) (inst : IrInstruction) :
    (inst.renameUses replace).operandsKept = inst.operandsKept := by
  cases inst <;> rfl

end IrInstruction

end Rayzor.Ir
