import Rayzor.Interp.Calls

/-!
Contract: one instruction, run.

Owns: what the decoder looks up for an instruction in its function (`Decl`), and
`eval`, which from that, the words of the operands and the world gives the word
the instruction assigns and the world it leaves.

Does not own: where the operands are kept or where the result goes. `eval` never
sees a register number except to fetch the operand it names.
-/

namespace Rayzor.Interp

open Ir

/-! ### Layout -/

def fieldSize : IrType → Nat
  | .i8 | .u8 | .bool => 1
  | .i16 | .u16 => 2
  | .i32 | .u32 | .f32 => 4
  | .void => 0
  | .vector element count => fieldSize element * count
  | _ => 8

def fieldLayout (offset : Nat) : List IrType → List (Nat × Mt)
  | [] => []
  | ty :: rest => (offset, (Mt.of ty).getD .i64) :: fieldLayout (offset + fieldSize ty) rest

def structLayout : IrType → Option (List (Nat × Mt))
  | .struct _ fields => some (fieldLayout 0 fields.types)
  | _ => none

/-! ### What an instruction looks up in its function -/

def aggregateType (function : IrFunction) (aggregate : IrId) : Option IrType :=
  ((function.signature.parameters.find? fun param => param.reg == aggregate).map (·.ty)) <|>
    localType function aggregate <|>
    (function.cfg.blocks.values.flatMap (·.instructions)).findSome? fun inst =>
      match inst with
      | .load dest _ ty => if dest = aggregate then some ty else none
      | _ => none

/-- Object fields are 8-byte slots; a narrow integer fills one. -/
def pointsToField : Option IrType → Bool
  | some (.ptr inner) => inner != .u8 && inner != .i8
  | _ => false

/-- The types an instruction resolves to: the one it computes at, and the one
its result register is declared with. -/
structure Decl where
  ty : Option IrType := none
  destTy : Option IrType := none

def declOf (function : IrFunction) : IrInstruction → Decl
  | .binOp dest _ left right => { ty := binopType function dest left right }
  | .unOp dest _ operand => { ty := unopType function dest operand }
  | .cmp _ _ left _ => { ty := cmpType function left }
  | .store ptr _ _ => { ty := regType function ptr }
  | .extractValue _ aggregate _ => { ty := aggregateType function aggregate }
  | .callDirect dest _ _ _ | .callIndirect dest _ _ _ =>
      { destTy := dest.bind (regType function) }
  | _ => {}

def resolved (decl : Decl) : Except Fault IrType :=
  match decl.ty with
  | some ty => .ok ty
  | none => .error .typeNotFound

/-! ### The rarer instructions -/

variable {E : Type}

/-- How a `Store` fills its slot. -/
def storedWord (pointer storeTy : Option IrType) (word : Word) : Except Fault Word :=
  let floatField := storeTy == some .f64 || storeTy == some .f32 || word.mt.isFloat
  coerce (if pointsToField pointer ∧ word.mt.isInt ∧ word.mt.bits < 64 ∧ ¬floatField then
    some (.sext word.mt .i64) else none) word

def loadGlobalMt : IrType → Mt
  | .i32 => .i32
  | .f32 => .f32
  | .f64 => .f64
  | .bool => .i8
  | _ => .i64

/-- `base + sext(index) * scale`. -/
def addrIndex (base index : Word) (scale : Nat) : Word :=
  ⟨.i64, base.bits + sext index.bits index.mt * BitVec.ofNat 64 scale⟩

def arrayHeaderWord (memory : Memory) (array : BitVec 64) (field : ArrayField) (guarded : Bool) :
    Except Fault Word :=
  if array = 0 then if guarded then .ok ⟨.i64, 0⟩ else .error .nullArrayHeader
  else do .ok ⟨.i64, ← read memory (array + BitVec.ofNat 64 field.byteOffset) .i64⟩

/-- A byte count: negative means nothing to do. -/
def byteCount (size : Word) : Nat := (sext size.bits size.mt).toInt.toNat

def storeFields (world : World E) (slot : BitVec 64) :
    List (Word × (Nat × Mt)) → Exec E (World E)
  | [] => .ok world
  | (word, (offset, _)) :: rest => do
      let world ← store world (slot + BitVec.ofNat 64 offset) word.mt word.bits
      storeFields world slot rest

def rmwResult (op : AtomicRmwOp) (old value : BitVec 64) : BitVec 64 :=
  match op with
  | .add => old + value
  | .sub => old - value
  | .and => old &&& value
  | .or => old ||| value
  | .xor => old ^^^ value
  | .xchg => value

/-- An atomic access hands back the old value and stores what `update` makes of
it; `none` leaves memory alone. -/
def atomic (world : World E) (mt : Mt) (address : BitVec 64)
    (update : BitVec 64 → Option (BitVec 64)) : Exec E (Word × World E) :=
  if address.toNat < nullPage then .error (.nullAtomic, world)
  else
    let width := if mt = .v128 then 8 else mt.bytes
    let old := readBytes world.memory address width
    match update old with
    | none => .ok (⟨mt, old⟩, world)
    | some new =>
        .ok (⟨mt, old⟩,
          (world.withMemory (writeBytes world.memory address new width)).record
            (.atomic address mt new))

def writeCaptures (memory : Memory) (env : BitVec 64) :
    Nat → List Word → Except Fault Memory
  | _, [] => .ok memory
  | index, word :: rest => do
      let memory ← write memory (env + BitVec.ofNat 64 (8 * index)) word.mt word.bits
      writeCaptures memory env (index + 1) rest

/-- The block the captures go in; none without captures. -/
def allocEnv (host : Host E) (count : Nat) (world : World E) : Exec E (BitVec 64 × World E) :=
  if count = 0 then .ok (0, world) else malloc host (8 * count) world

def makeClosure (host : Host E) (func : IrFunctionId) (captures : List Word) (world : World E) :
    Exec E (Word × World E) := do
  let code ← lift world (host.functionAddress func)
  let captures ← lift world (captures.mapM fun word =>
    coerce (if word.mt = .i32 ∨ word.mt = .i8 then some (.sext word.mt .i64) else none) word)
  let (env, world) ← allocEnv host captures.length world
  let memory ← lift world (writeCaptures world.memory env 0 captures)
  let (object, world) ← malloc host 16 (world.withMemory memory)
  let memory ← lift world (write world.memory object .i64 code)
  let memory ← lift world (write memory (object + 8) .i64 env)
  .ok (⟨.i64, object⟩, world.withMemory memory)

def cloneObject (host : Host E) (source : Word) (world : World E) : Exec E (Word × World E) := do
  if source.bits = 0 then .error (.cloneOfNull, world)
  else
    let (object, world) ← malloc host 64 world
    .ok (⟨.i64, object⟩, world.withMemory (copyBytes world.memory object source.bits 64))

/-- A constant, asking the runtime for strings and code addresses. -/
def constant (host : Host E) (value : IrValue) (world : World E) : Exec E (Word × World E) :=
  match value with
  | .string text =>
      if host.hasSymbol "haxe_string_literal" then
        let (object, heap) := host.stringLiteral text world.toHeap
        .ok (⟨.i64, object⟩, world.withHeap heap)
      else .error (.unresolvedExtern "haxe_string_literal", world)
  | .function func => do
      let address ← lift world (host.functionAddress func)
      .ok (⟨.i64, address⟩, world)
  | value =>
      match constantWord value with
      | some word => .ok (word, world)
      | none => .error (.unsupportedConstant, world)

/-! ### Calls -/

/-- What a call the host has answered leaves. -/
def answered (event : Event) (answer : Except Fault (BitVec 64) × Core E) (wanted : Bool)
    (received : BitVec 64 → Except Fault Word) (world : World E) :
    Exec E (Option Word × World E) := do
  let world := (world.withCore answer.2).record event
  let bits ← lift world answer.1
  if wanted then do
    let word ← lift world (received bits)
    .ok (some word, world)
  else .ok (none, world)

def callDirect (module : IrModule) (host : Host E) (decl : Decl) (slot : BitVec 64)
    (wanted : Bool) (func : IrFunctionId) (args : List Word) (world : World E) :
    Exec E (Option Word × World E) :=
  match calleeOf module func with
  | none => .error (.functionNotFound func, world)
  | some callee =>
      if callee.isExtern ∧ callee.name = "_setjmp" then .error (.setjmp, world)
      else match callee.intrinsic args with
        | some intrinsic => do
            let result ← lift world (runIntrinsic host world.memory intrinsic wanted args)
            .ok (result, world)
        | none =>
            if callee.isExtern ∧ host.hasSymbol callee.name = false then
              .error (.unresolvedExtern callee.name, world)
            else do
              let crossed ← lift world (callArgs callee args)
              let sret := if callee.returnsSlot then some slot else none
              answered (.call func crossed) (host.call func crossed sret world.toCore) wanted
                (deliver callee decl.destTy slot) world

/-- The closure's arguments, at the call site's signature. -/
def coerceIndirectArgs (expected : List Mt) (args : List Word) : Except Fault (List Word) :=
  (args.zipIdx).mapM fun entry =>
    coerce (indirectArgCoercion entry.1.mt ((expected[entry.2]?).getD entry.1.mt)) entry.1

/-- A call through a closure object `{fn, env}`. -/
def callIndirect (host : Host E) (decl : Decl) (wanted : Bool) (closure : Word)
    (args : List Word) (signature : IrType) (world : World E) :
    Exec E (Option Word × World E) :=
  match signature with
  | .function params returnType _ =>
      if (structLayout returnType).isSome then .error (.structReturn, world)
      else do
        let args ← lift world (coerceIndirectArgs (params.toList.filterMap Mt.of) args)
        if closure.bits = 0 then .error (.nullFunctionValue, world)
        else do
          let code ← lift world (read world.memory closure.bits .i64)
          let env ← lift world (read world.memory (closure.bits + 8) .i64)
          let crossed := args.map fun word => (word.bits, word.mt)
          answered (.callIndirect code env crossed)
            (host.callIndirect code env crossed world.toCore) wanted
            (fun bits => .ok (match Mt.of returnType with
              | some mt => ⟨mt, canon bits mt⟩
              | none => zeroFor decl.destTy)) world
  | _ => .error (.invalidSignature, world)

/-! ### One instruction -/

/-- What an instruction reads besides its operands: the stack slot it owns, the
environment of the frame, and whether the value it checks was moved away. -/
structure Site where
  slot : BitVec 64
  env : BitVec 64
  moved : Bool

/-- A value computed without touching the world. -/
def computing (world : World E) (result : Except Fault Word) : Exec E (Option Word × World E) := do
  let word ← lift world result
  .ok (some word, world)

/-- A value that comes with a new world. -/
def assigning (result : Exec E (Word × World E)) : Exec E (Option Word × World E) := do
  let (word, world) ← result
  .ok (some word, world)

/-- Run one instruction on the words `get` gives its operands. -/
def eval (module : IrModule) (host : Host E) (decl : Decl) (site : Site) (get : IrId → Word)
    (inst : IrInstruction) (world : World E) : Exec E (Option Word × World E) :=
  let pure := computing world
  match inst with
  | .const _ value => assigning (constant host value world)
  | .copy _ src | .move _ src | .ssaBarrier _ src _ | .borrowImmutable _ src
  | .borrowMutable _ src | .closureFunc _ src => pure (.ok (get src))
  | .clone _ src => assigning (cloneObject host (get src) world)
  | .endBorrow _ | .debugLoc | .phi _ _ => .ok (none, world)
  | .jump _ | .branch _ _ _ | .switch _ _ _ | .returnValue _ => .ok (none, world)
  | .markMoved _ => .ok (none, world)
  | .checkLive _ line =>
      if site.moved then .error (.useAfterMove line, world) else .ok (none, world)
  | .binOp _ op left right =>
      pure (do binop (← resolved decl) op (get left) (get right))
  | .unOp _ op operand => pure (do unop (← resolved decl) op (get operand))
  | .cmp _ op left right => pure (do cmp (← resolved decl) op (get left) (get right))
  | .load _ ptr ty =>
      pure (match Mt.of ty with
        | none => .error .voidType
        | some mt => do .ok ⟨mt, ← read world.memory (get ptr).bits mt⟩)
  | .store ptr value storeTy => do
      let word ← lift world (storedWord decl.ty storeTy (get value))
      let world ← store world (get ptr).bits word.mt word.bits
      .ok (none, world)
  | .alloc _ _ _ => pure (.ok ⟨.i64, site.slot⟩)
  | .free ptr =>
      let heap := host.free (get ptr).bits world.toHeap
      .ok (none, (world.withHeap heap).record (.free (get ptr).bits))
  | .getElementPtr _ ptr indices ty =>
      pure (match indices with
        | [index] =>
            .ok (addrIndex (get ptr) (get index) (if ty = .ptr .i8 then 1 else 8))
        | _ => .error (.indexCount indices.length))
  | .ptrAdd _ ptr offset ty =>
      pure (match ty with
        | .ptr pointee => .ok (addrIndex (get ptr) (get offset) (fieldSize pointee))
        | _ => .error .notPointer)
  | .arrayHeader _ array field guarded =>
      pure (arrayHeaderWord world.memory (get array).bits field guarded)
  | .memCopy dest src size =>
      let count := byteCount (get size)
      if count = 0 then .ok (none, world)
      else
        .ok (none, (world.withMemory
          (copyBytes world.memory (get dest).bits (get src).bits count)).record
            (.copy (get dest).bits (get src).bits count))
  | .memSet dest value size =>
      let count := byteCount (get size)
      if count = 0 then .ok (none, world)
      else
        .ok (none, (world.withMemory
          (fillBytes world.memory (get dest).bits ((get value).bits.setWidth 8) count)).record
            (.fill (get dest).bits ((get value).bits.setWidth 8) count))
  | .callDirect dest func args _ =>
      callDirect module host decl site.slot dest.isSome func (args.map get) world
  | .callIndirect dest funcPtr args signature =>
      callIndirect host decl dest.isSome (get funcPtr) (args.map get) signature world
  | .cast _ src fromTy toTy => pure (cast fromTy toTy (get src))
  | .bitCast _ src ty => pure (bitCast ty (get src))
  | .createStruct _ ty fields =>
      match structLayout ty with
      | none => .error (.notStruct, world)
      | some layout => do
          let world ← storeFields world site.slot ((fields.map get).zip layout)
          .ok (some ⟨.i64, site.slot⟩, world)
  | .createUnion _ discriminant value => do
      let world ← store world site.slot .i32 (discriminant.setWidth 64)
      let world ← store world (site.slot + 8) (get value).mt (get value).bits
      .ok (some ⟨.i64, site.slot⟩, world)
  | .extractDiscriminant _ unionVal =>
      pure (do .ok ⟨.i32, ← read world.memory (get unionVal).bits .i32⟩)
  | .extractUnionValue _ unionVal valueTy =>
      pure (do
        let mt := (Mt.of valueTy).getD .i64
        .ok ⟨mt, ← read world.memory ((get unionVal).bits + 8) mt⟩)
  | .extractValue _ aggregate indices =>
      pure (match indices with
        | [index] => do
            match structLayout (← resolved decl) with
            | none => .error .notStruct
            | some layout =>
                match layout[index]? with
                | none => .error (.fieldOutOfBounds index)
                | some (offset, mt) =>
                    .ok ⟨mt, ← read world.memory
                      ((get aggregate).bits + BitVec.ofNat 64 offset) mt⟩
        | _ => .error (.indexCount indices.length))
  | .select _ condition trueVal falseVal =>
      pure (.ok ⟨(get trueVal).mt,
        if (get condition).bits ≠ 0 then (get trueVal).bits else (get falseVal).bits⟩)
  | .functionRef _ func => assigning (makeClosure host func [] world)
  | .makeClosure _ func captured => assigning (makeClosure host func (captured.map get) world)
  | .closureEnv _ _ => pure (.ok ⟨.i64, site.env⟩)
  | .undef _ ty => pure (.ok (undefWord ty))
  | .loadGlobal _ globalId ty =>
      pure (.ok ⟨loadGlobalMt ty, canon (world.globals globalId) (loadGlobalMt ty)⟩)
  | .storeGlobal globalId value =>
      let bits := canon (get value).bits (get value).mt
      .ok (none, ({ world with
        globals := fun other => if other = globalId then bits else world.globals other }).record
          (.storeGlobal globalId bits))
  | .atomicLoad _ ptr ty =>
      assigning (match Mt.of ty with
        | none => .error (.voidType, world)
        | some mt => atomic world mt (get ptr).bits fun _ => none)
  | .atomicStore ptr value => do
      let (_, world) ← atomic world (get value).mt (get ptr).bits fun _ => some (get value).bits
      .ok (none, world)
  | .atomicRmw _ op ptr value ty =>
      assigning (match Mt.of ty with
        | none => .error (.voidType, world)
        | some mt => atomic world mt (get ptr).bits fun old =>
            some (rmwResult op old (get value).bits))
  | .atomicCas _ ptr expected replacement =>
      assigning (atomic world (get expected).mt (get ptr).bits fun old =>
        if old = canon (get expected).bits (get expected).mt then some (get replacement).bits
        else none)
  | .vectorLoad _ _ | .vectorStore _ _ | .vectorBinOp _ _ _ | .vectorSplat _ _
  | .vectorExtract _ _ | .vectorInsert _ _ _ | .vectorReduce _ _ | .vectorUnaryOp _ _
  | .vectorMinMax _ _ _ | .vectorDot _ _ _ _ | .vectorShuffle _ _ _ | .vectorConvert _ _
  | .vectorNarrow _ _ _ => .error (.vectorCode, world)
  | .panic message => .error (.panicked (message.getD "panic"), world)
  | .insertValue _ _ _ _ | .throw _ | .landingPad _ | .resume _ | .inlineAsm _ _ =>
      .error (.unsupportedInstruction, world)

end Rayzor.Interp
