import Rayzor.Passes.IntQuotient
import Rayzor.Ssa.Checked

/-!
Contract: truncating the Float quotient of two Ints is dividing them, and so
the instructions the quotient pass puts in place of a call deliver what the
call delivers.
-/

namespace Rayzor.Passes.IntQuotient

open Ir Interp Library Ssa

/-! ### Quotients of Ints -/

def floatQuotient (dividend divisor : BitVec 32) : Nat :=
  Binary.div .binary64 (Binary.ofInt .binary64 dividend.toInt)
    (Binary.ofInt .binary64 divisor.toInt)

/-- `-1` is the divisor that takes a quotient out of range. -/
theorem truncInt_floatQuotient (dividend : BitVec 32) {divisor : BitVec 32} (nonzero : divisor ≠ 0)
    (notMinusOne : divisor ≠ -1) :
    (Binary.decode .binary64 (floatQuotient dividend divisor)).isFinite = true ∧
      (Binary.decode .binary64 (floatQuotient dividend divisor)).truncInt =
        (dividend.sdiv divisor).toInt := by
  have isNonzero : divisor.toInt ≠ 0 := fun zero =>
    nonzero (BitVec.eq_of_toInt_eq (zero.trans BitVec.toInt_zero.symm))
  have fits : dividend.toInt.natAbs + divisor.toInt.natAbs < 2 ^ Format.binary64.precision := by
    have low := BitVec.le_toInt dividend
    have high := BitVec.toInt_lt (x := dividend)
    have low' := BitVec.le_toInt divisor
    have high' := BitVec.toInt_lt (x := divisor)
    have precision : 2 ^ Format.binary64.precision = 9007199254740992 := rfl
    rw [precision]
    omega
  rw [BitVec.toInt_sdiv_of_ne_or_ne _ _ (Or.inr notMinusOne)]
  exact Binary.truncInt_div Format.binary64_roomy isNonzero fits

/-- A register's 64 bits hold a Float's pattern. -/
theorem decode_word (pattern : Nat) :
    Binary.decode .binary64 (BitVec.ofNat 64 pattern).toNat = Binary.decode .binary64 pattern := by
  rw [BitVec.toNat_ofNat]
  exact Binary.decode_mod .binary64 pattern

def intWord (value : BitVec 32) : Word := ⟨.i32, value.setWidth 64⟩

/-! ### From a pattern to an Int -/

section Conversions

variable {pattern : BitVec 64} {value : BitVec 32}

/-- The pattern is a Float that truncates to this Int. -/
structure Truncates (pattern : BitVec 64) (value : BitVec 32) : Prop where
  finite : (Binary.decode .binary64 pattern.toNat).isFinite = true
  whole : (Binary.decode .binary64 pattern.toNat).truncInt = value.toInt

theorem Truncates.saturated (truncates : Truncates pattern value) :
    Conv.saturated pattern.toNat 32 = value.toInt := by
  have low := BitVec.le_toInt value
  have high := BitVec.toInt_lt (x := value)
  obtain ⟨finite, whole⟩ := truncates
  unfold Conv.saturated
  cases isDatum : Binary.decode .binary64 pattern.toNat with
  | nan => rw [isDatum] at finite; cases finite
  | infinite negative => rw [isDatum] at finite; cases finite
  | finite negative mantissa exponent =>
      rw [isDatum] at whole
      simp only [whole]
      omega

theorem Truncates.of_truncated (truncates : Truncates pattern value) {low high whole : Int}
    (truncated : Conv.truncated pattern.toNat low high = .ok whole) : whole = value.toInt := by
  obtain ⟨finite, isWhole⟩ := truncates
  unfold Conv.truncated at truncated
  cases isDatum : Binary.decode .binary64 pattern.toNat with
  | nan => rw [isDatum] at finite; cases finite
  | infinite negative => rw [isDatum] at finite; cases finite
  | finite negative mantissa exponent =>
      rw [isDatum] at truncated isWhole
      simp only at truncated
      split_ifs at truncated
      cases truncated
      exact isWhole

theorem stdIntWord_float (truncates : Truncates pattern value) :
    stdIntWord ⟨.f64, pattern⟩ = .ok (intWord value) := by
  have bits : canon (BitVec.ofInt 64 (Conv.saturated (float pattern .f64) 32)) .i32 =
      value.setWidth 64 := by
    rw [float, if_neg (by decide), truncates.saturated, canon_toInt]
  exact congrArg (fun bits => Except.ok (Word.mk .i32 bits)) bits

theorem stdIntWord_i32 : stdIntWord (intWord value) = .ok (intWord value) := rfl

theorem stdIntWord_i64 :
    stdIntWord ⟨.i64, canon (BitVec.ofInt 64 value.toInt) .i64⟩ = .ok (intWord value) :=
  congrArg (fun bits => Except.ok (Word.mk .i32 bits)) (canon_toInt value)

/-- The word a Float becomes where an integer is expected, if it does not trap. -/
theorem Truncates.of_coerce (truncates : Truncates pattern value) {signed : Bool} {expected : Mt}
    {word : Word}
    (converted : coerce (some (if signed then .fToS .f64 expected else .fToU .f64 expected))
      ⟨.f64, pattern⟩ = .ok word) :
    word = ⟨expected, canon (BitVec.ofInt 64 value.toInt) expected⟩ := by
  obtain ⟨bits, applied, made⟩ := bind_eq_ok.mp converted
  cases signed
  · obtain ⟨whole, truncated, same⟩ := bind_eq_ok.mp applied
    have isWhole := truncates.of_truncated truncated
    cases same
    cases made
    rw [isWhole]
    rfl
  · obtain ⟨whole, truncated, same⟩ := bind_eq_ok.mp applied
    have isWhole := truncates.of_truncated truncated
    cases same
    cases made
    rw [isWhole]
    rfl

/-- Whatever type the division is declared with, the call makes the same of it. -/
theorem stdIntWord_of_truncates (truncates : Truncates pattern value) {signed : Bool}
    {ty : IrType} {word : Word}
    (converted : coerce (finalConv signed .f64 (expectedMt ty)) ⟨.f64, pattern⟩ = .ok word) :
    stdIntWord word = .ok (intWord value) := by
  have kinds : expectedMt ty = .i32 ∨ expectedMt ty = .i64 ∨
      expectedMt ty = .f32 ∨ expectedMt ty = .f64 := by
    unfold expectedMt
    split <;> simp
  obtain isExpected | isExpected | isExpected | isExpected := kinds
  · rw [isExpected] at converted
    rw [truncates.of_coerce converted, canon_toInt]
    exact stdIntWord_i32
  · rw [isExpected] at converted
    rw [truncates.of_coerce converted]
    exact stdIntWord_i64
  · rw [isExpected] at converted
    cases converted
    exact stdIntWord_float truncates
  · rw [isExpected] at converted
    cases converted
    exact stdIntWord_float truncates

/-- A division of two Floats, as the interpreter runs it. -/
theorem binop_div {ty : IrType} {op : BinaryOp} (isDiv : op = .div ∨ op = .fdiv)
    (left right : BitVec 64) :
    binop ty op ⟨.f64, left⟩ ⟨.f64, right⟩ =
      coerce (finalConv (isSigned ty) .f64 (expectedMt ty))
        ⟨.f64, BitVec.ofNat 64 (Binary.div .binary64 left.toNat right.toNat)⟩ := by
  obtain rfl | rfl := isDiv
  · cases ty <;> rfl
  · cases ty <;> rfl

/-- A division of two Ints, as the interpreter runs it. -/
theorem binop_intWord {dividend : Word} (isInt : dividend.mt = .i32) {divisor : BitVec 32}
    (nonzero : divisor ≠ 0) (notMinusOne : divisor ≠ -1) :
    binop .i32 .div dividend (intWord divisor) =
      .ok (intWord ((dividend.bits.setWidth 32).sdiv divisor)) := by
  obtain ⟨mt, bits⟩ := dividend
  cases isInt
  have isDividend : sext bits .i32 = (bits.setWidth 32).signExtend 64 := rfl
  have divides : sext (divisor.setWidth 64) .i32 ≠ 0 := by
    rw [sext_i32]
    exact fun zero => nonzero ((signExtend_inj divisor 0).mp zero)
  have inRange : ¬(sext (divisor.setWidth 64) .i32 = -1 ∧
      sext bits .i32 = sext (1 <<< (Mt.i32.bits - 1)) .i32) := by
    rw [sext_i32]
    exact fun both => notMinusOne ((signExtend_inj divisor (-1)).mp both.1)
  have divided : ibin .sdiv .i32 bits (divisor.setWidth 64) =
      .ok (((bits.setWidth 32).sdiv divisor).setWidth 64) := by
    unfold ibin
    simp only [if_neg divides, if_neg inRange, bind_ok]
    rw [sext_i32, isDividend, canon_i32, low_sdiv]
  have evaluated : binop .i32 .div ⟨.i32, bits⟩ (intWord divisor) = (do
      let result ← ibin .sdiv .i32 bits (divisor.setWidth 64)
      coerce none ⟨.i32, result⟩) := rfl
  rw [evaluated, divided]
  rfl

end Conversions

/-! ### What registers hold at a site -/

theorem definition_of_defs {function : IrFunction} {reg : IrId} {inst : IrInstruction}
    (defined : (defs function).get? reg = some inst) :
    ∃ (id : IrBlockId) (block : IrBasicBlock) (pc : Nat), function.getBlock id = some block ∧
      block.instructions[pc]? = some inst ∧ inst.dest = some reg := by
  have member := OrdMap.mem_of_get?_ofList defined
  obtain ⟨inst', isInst, isDest⟩ := List.mem_filterMap.mp member
  obtain ⟨dest, hasDest, same⟩ := Option.map_eq_some_iff.mp isDest
  cases same
  obtain ⟨block, isBlock, inBlock⟩ := List.mem_flatMap.mp isInst
  obtain ⟨id, found⟩ := (OrdMap.mem_values_iff _ _).mp isBlock
  obtain ⟨pc, here⟩ := List.mem_iff_getElem?.mp inBlock
  exact ⟨id, block, pc, found, here, hasDest⟩

section Values

variable {E : Type} {module : IrModule} {host : Host E} {function : IrFunction}
  {frame : Frame} {world : World E} {state : State E} {reg : IrId} {inst : IrInstruction}

/-- Where a register is available, so are the operands of its one definition,
and it holds what they give. -/
theorem value_of_defs (ssa : SsaForm function)
    (runs : Runs module host function frame world state)
    (defined : (defs function).get? reg = some inst) (writes : inst.writes = inst.dest)
    (isPure : ∀ get, (pureValue (declOf function inst) get inst).isSome)
    (available : Available function reg (pointOf state)) :
    pureValue (declOf function inst) state.frame.regs inst =
        some (.ok (state.frame.regs reg)) ∧
      ∀ operand ∈ inst.uses, Available function operand (pointOf state) := by
  obtain ⟨id, block, pc, found, here, hasDest⟩ := definition_of_defs defined
  have written : inst.writes = some reg := writes.trans hasDest
  refine ⟨ssa.equation found here written isPure runs available, fun operand used => ?_⟩
  have defines : DefinesAt function reg (id, pc + 1) := .instruction found here written
  apply (ssa.operands found here operand used).of_dominated
  exact (dominates_next id pc).trans (ssa.dominates defines available)

theorem value_of_intConst (ssa : SsaForm function)
    (runs : Runs module host function frame world state) {value : BitVec 32}
    (isConst : intConst (defs function) reg = some value)
    (available : Available function reg (pointOf state)) :
    state.frame.regs reg = intWord value := by
  unfold intConst at isConst
  split at isConst
  · next dest constant defined =>
      cases isConst
      have holds := (value_of_defs ssa runs defined rfl (fun _ => rfl) available).1
      exact (Except.ok.inj (Option.some.inj holds)).symm
  · cases isConst

theorem cast_int {word : Word} (isInt : word.mt = .i32) :
    Interp.cast .i32 .f64 word =
      .ok ⟨.f64, BitVec.ofNat 64 (Binary.ofInt .binary64 (word.bits.setWidth 32).toInt)⟩ := by
  obtain ⟨mt, bits⟩ := word
  cases isInt
  have low : (sext bits .i32).toInt = (bits.setWidth 32).toInt :=
    BitVec.toInt_signExtend_of_le (by decide)
  rw [← low]
  rfl

theorem value_of_dividend (ssa : SsaForm function)
    (runs : Runs module host function frame world state) {dividend : IrId}
    (isSource : source (defs function) reg = some (.value dividend))
    (available : Available function reg (pointOf state))
    (isInt : (state.frame.regs dividend).mt = .i32) :
    state.frame.regs reg = ⟨.f64, BitVec.ofNat 64 (Binary.ofInt .binary64
      ((state.frame.regs dividend).bits.setWidth 32).toInt)⟩ := by
  unfold source at isSource
  split at isSource
  · next dest src defined =>
      cases isConst : intConst (defs function) src with
      | some constant =>
          rw [isConst] at isSource
          cases isSource
      | none =>
          rw [isConst] at isSource
          cases isSource
          have holds := (value_of_defs ssa runs defined rfl (fun _ => rfl) available).1
          have converted := Option.some.inj holds
          rw [cast_int isInt] at converted
          exact (Except.ok.inj converted).symm
  · obtain ⟨constant, -, same⟩ := Option.map_eq_some_iff.mp isSource
    cases same
  · cases isSource

theorem decode_of_wholeConst {pattern : BitVec 64} {divisor : BitVec 32}
    (isWhole : wholeConst pattern = some divisor) (nonzero : divisor ≠ 0) :
    Binary.decode .binary64 pattern.toNat =
      Binary.decode .binary64 (Binary.ofInt .binary64 divisor.toInt) := by
  unfold wholeConst at isWhole
  simp only at isWhole
  split_ifs at isWhole with accepted
  rw [Bool.and_eq_true] at accepted
  have small := Binary.natAbs_truncInt_lt accepted.2
  have isDivisor : (Binary.decode .binary64 pattern.toNat).truncInt = divisor.toInt := by
    cases isWhole
    cases isDatum : Binary.decode .binary64 pattern.toNat with
    | nan => rw [isDatum] at accepted; cases accepted.1
    | infinite negative => rw [isDatum] at accepted; cases accepted.1
    | finite negative mantissa exponent =>
        rw [isDatum] at small
        have size : (2 : Nat) ^ 31 = 2147483648 := by norm_num
        have low : (-2 ^ (32 - 1) : Int) = -2147483648 := by norm_num
        have high : (2 ^ (32 - 1) - 1 : Int) = 2147483647 := by norm_num
        rw [size] at small
        unfold Conv.saturated
        simp only [isDatum, low, high]
        rw [BitVec.toInt_ofInt, max_eq_right (by omega), min_eq_right (by omega),
          Int.bmod_eq_of_le (by omega) (by omega)]
  have isNonzero : divisor.toInt ≠ 0 := fun zero =>
    nonzero (BitVec.eq_of_toInt_eq (zero.trans BitVec.toInt_zero.symm))
  rw [← isDivisor]
  apply Binary.decode_of_isWhole Format.binary64_roomy accepted.1
  · rw [isDivisor]
    exact isNonzero
  · exact small.trans (by decide)

theorem value_of_divisor (ssa : SsaForm function)
    (runs : Runs module host function frame world state) {divisor : BitVec 32}
    (isSource : source (defs function) reg = some (.constant divisor))
    (available : Available function reg (pointOf state)) (nonzero : divisor ≠ 0) :
    ∃ pattern, state.frame.regs reg = ⟨.f64, pattern⟩ ∧
      Binary.decode .binary64 pattern.toNat =
        Binary.decode .binary64 (Binary.ofInt .binary64 divisor.toInt) := by
  unfold source at isSource
  split at isSource
  · next dest src defined =>
      cases isConst : intConst (defs function) src with
      | none =>
          rw [isConst] at isSource
          cases isSource
      | some constant =>
          rw [isConst] at isSource
          cases isSource
          have holds := value_of_defs ssa runs defined rfl (fun _ => rfl) available
          have isWord := value_of_intConst ssa runs isConst (holds.2 src List.mem_cons_self)
          have converted := Option.some.inj holds.1
          rw [cast_int (congrArg Word.mt isWord), isWord] at converted
          have same : ((intWord divisor).bits.setWidth 32) = divisor := by simp [intWord]
          rw [same] at converted
          exact ⟨_, (Except.ok.inj converted).symm, decode_word _⟩
  · next dest pattern defined =>
      obtain ⟨constant, isWhole, same⟩ := Option.map_eq_some_iff.mp isSource
      cases same
      have holds := (value_of_defs ssa runs defined rfl (fun _ => rfl) available).1
      exact ⟨pattern, (Except.ok.inj (Option.some.inj holds)).symm,
        decode_of_wholeConst isWhole nonzero⟩
  · cases isSource

theorem stdIntWord_at_site (ssa : SsaForm function)
    (runs : Runs module host function frame world state) {callees : List IrFunctionId}
    {site : QuotientSite} {block : IrBasicBlock} {func : IrFunctionId} {arg left right : IrId}
    {typeArgs : List IrType}
    (isFound : Found callees function site block func arg left right typeArgs)
    (here : pointOf state = (site.block, site.idx))
    (isInt : (state.frame.regs site.dividend).mt = .i32) :
    stdIntWord (state.frame.regs arg) = .ok (intWord
      (((state.frame.regs site.dividend).bits.setWidth 32).sdiv site.divisor)) := by
  have available : Available function arg (pointOf state) :=
    here ▸ ssa.operands isFound.found isFound.here arg List.mem_cons_self
  obtain ⟨dest, op, isDiv, defined⟩ : ∃ dest op, (op = BinaryOp.div ∨ op = .fdiv) ∧
      (defs function).get? arg = some (.binOp dest op left right) := by
    have isDivision := isFound.division
    unfold division at isDivision
    split at isDivision
    · next dest left right defined =>
        cases isDivision
        exact ⟨dest, .div, Or.inl rfl, defined⟩
    · next dest left right defined =>
        cases isDivision
        exact ⟨dest, .fdiv, Or.inr rfl, defined⟩
    · cases isDivision
  obtain ⟨holds, operands⟩ := value_of_defs ssa runs defined rfl (fun _ => rfl) available
  have isLeft := value_of_dividend ssa runs isFound.dividend
    (operands left List.mem_cons_self) isInt
  obtain ⟨pattern, isRight, isDivisor⟩ := value_of_divisor ssa runs isFound.divisor
    (operands right (List.mem_cons_of_mem _ List.mem_cons_self)) isFound.nonzero
  obtain ⟨ty, -, divided⟩ := bind_eq_ok.mp (Option.some.inj holds)
  rw [isLeft, isRight, binop_div isDiv] at divided
  apply stdIntWord_of_truncates _ divided
  have quotient := truncInt_floatQuotient ((state.frame.regs site.dividend).bits.setWidth 32)
    isFound.nonzero isFound.notMinusOne
  have samePattern : Binary.decode .binary64 (BitVec.ofNat 64 (Binary.div .binary64
      (BitVec.ofNat 64 (Binary.ofInt .binary64
        ((state.frame.regs site.dividend).bits.setWidth 32).toInt)).toNat pattern.toNat)).toNat =
      Binary.decode .binary64 (floatQuotient
        ((state.frame.regs site.dividend).bits.setWidth 32) site.divisor) := by
    rw [decode_word, Binary.div, decode_word, isDivisor]
    rfl
  exact ⟨samePattern ▸ quotient.1, samePattern ▸ quotient.2⟩

end Values

/-! ### The call -/

/-- A number that is in both tables of a module names one function. -/
def NamesAgree (module : IrModule) : Prop :=
  ∀ {func ext function}, module.externFunctions.get? func = some ext →
    module.functions.get? func = some function → ext.name = function.name

section Calls

variable {E : Type} {module : IrModule} {host : Host E} {func : IrFunctionId}

theorem calleeOf_stdInt (agree : NamesAgree module) (member : func ∈ stdInt module) :
    ∃ callee, calleeOf module func = some callee ∧ callee.isExtern = true ∧
      callee.name = "haxe_std_int" := by
  unfold calleeOf
  rcases List.mem_append.mp member with inExtern | inFunctions
  · obtain ⟨⟨func, ext⟩, isEntry, rfl⟩ := List.mem_map.mp inExtern
    obtain ⟨isEntry, isNamed⟩ := List.mem_filter.mp isEntry
    rw [(OrdMap.mem_entries_iff _ _ _).mp isEntry]
    exact ⟨_, rfl, rfl, eq_of_beq isNamed⟩
  · obtain ⟨⟨func, function⟩, isEntry, rfl⟩ := List.mem_map.mp inFunctions
    obtain ⟨isEntry, isNamed⟩ := List.mem_filter.mp isEntry
    rw [Bool.and_eq_true] at isNamed
    have found := (OrdMap.mem_entries_iff _ _ _).mp isEntry
    cases isExt : module.externFunctions.get? func with
    | some ext => exact ⟨_, rfl, rfl, (agree isExt found).trans (eq_of_beq isNamed.2)⟩
    | none =>
        rw [found]
        exact ⟨_, rfl, isNamed.1, eq_of_beq isNamed.2⟩

theorem callDirect_stdInt (agree : NamesAgree module) (member : func ∈ stdInt module)
    (decl : Decl) (slot : BitVec 64) {word result : Word} (world : World E)
    (computed : stdIntWord word = .ok result) :
    callDirect module host decl slot true func [word] world = .ok (some result, world) := by
  obtain ⟨callee, isCallee, isExtern, isNamed⟩ := calleeOf_stdInt agree member
  have isIntrinsic : callee.intrinsic [word] = some .stdInt := by
    unfold Callee.intrinsic
    rw [if_pos isExtern, isNamed]
    rfl
  have notSetjmp : ¬(callee.isExtern = true ∧ callee.name = "_setjmp") := by
    rw [isNamed]
    exact fun both => absurd both.2 (by decide)
  unfold callDirect
  simp only [isCallee, notSetjmp, if_false, isIntrinsic, runIntrinsic, if_true, computed, bind_ok]
  rfl

end Calls

/-! ### The instructions in its place -/

/-- An Int narrowed or widened to a type. -/
def converted (ty : IrType) (word : Word) : Except Fault Word :=
  if ty = .i32 then .ok word else Interp.cast .i32 ty word

theorem converted_integer {ty : IrType} {mt : Mt} (isMt : Mt.of ty = some mt)
    (fits : mt = .i8 ∨ mt = .i32 ∨ mt = .i64) (value : BitVec 32) :
    converted ty (intWord value) = .ok ⟨mt, canon (value.signExtend 64) mt⟩ := by
  have low : ∀ place < 32, (value.signExtend 64).getLsbD place = value.getLsbD place := by
    intro place inside
    rw [BitVec.getLsbD_signExtend, if_pos inside, decide_eq_true (by omega), Bool.true_and]
  have byte : (value.setWidth 64).setWidth 8 = (value.signExtend 64).setWidth 8 := by
    apply BitVec.eq_of_getLsbD_eq
    intro place inside
    rw [BitVec.getLsbD_setWidth, BitVec.getLsbD_setWidth, BitVec.getLsbD_setWidth,
      low place (by omega), decide_eq_true (by omega : place < 64), Bool.true_and]
  have word : canon (value.signExtend 64) .i32 = value.setWidth 64 := by
    rw [canon_i32]
    congr 1
    apply BitVec.eq_of_getLsbD_eq
    intro place inside
    rw [BitVec.getLsbD_setWidth, low place inside, decide_eq_true inside, Bool.true_and]
  unfold converted
  split_ifs with isInt
  · subst isInt
    cases isMt
    rw [word]
    rfl
  · unfold Interp.cast
    rw [isMt]
    obtain rfl | rfl | rfl := fits
    · exact congrArg (fun bits => Except.ok (Word.mk .i8 (bits.setWidth 64))) byte
    · rw [word]
      rfl
    · exact congrArg (fun bits => Except.ok (Word.mk .i64 bits)) (sext_i32 value)

section Replacement

variable {E : Type} {module : IrModule} {host : Host E} {function rewritten : IrFunction}

theorem step_of_here {state : State E} {block : IrBasicBlock} {inst : IrInstruction} {frame : Frame}
    {world : World E} (found : function.getBlock state.block = some block)
    (here : block.instructions[state.pc]? = some inst)
    (ran : execute module host function inst state.frame state.world = .ok (frame, world)) :
    (machine module host function).step state =
      .inl { state with pc := state.pc + 1, frame, world } :=
  step_eq_inl.mpr (.executed found here ran)

theorem step_of_fault {state : State E} {block : IrBasicBlock} {inst : IrInstruction}
    {fault : Fault} {world : World E} (found : function.getBlock state.block = some block)
    (here : block.instructions[state.pc]? = some inst)
    (ran : execute module host function inst state.frame state.world = .error (fault, world)) :
    (machine module host function).step state = .inr (.faulted fault world) := by
  unfold machine step
  simp only [found, here, ran]

variable {site : QuotientSite} {state : State E} {block : IrBasicBlock} {constant quotient : IrId}

/-- The registers once the quotient is computed. -/
def quotientFrame (site : QuotientSite) (frame : Frame) (constant quotient : IrId) : Frame :=
  let first := frame.after (.const constant (.i32 site.divisor)) (some (intWord site.divisor))
  first.after (.binOp quotient .div site.dividend constant)
    (some (intWord (((frame.regs site.dividend).bits.setWidth 32).sdiv site.divisor)))

theorem run_quotient (found : rewritten.getBlock state.block = some block)
    (replaces : Replaces function rewritten site block.instructions state.pc constant quotient)
    (old : site.dividend < function.nextRegId) (isInt : (state.frame.regs site.dividend).mt = .i32)
    (nonzero : site.divisor ≠ 0) (notMinusOne : site.divisor ≠ -1) :
    (machine module host rewritten).run 2 state =
      .inl { state with
        pc := state.pc + 2
        frame := quotientFrame site state.frame constant quotient } := by
  have first : (machine module host rewritten).step state = .inl { state with
      pc := state.pc + 1
      frame := state.frame.after (.const constant (.i32 site.divisor))
        (some (intWord site.divisor)) } :=
    step_of_here found (replaces.here 0 (by decide)) rfl
  have kept : (state.frame.after (.const constant (.i32 site.divisor))
      (some (intWord site.divisor))).regs site.dividend = state.frame.regs site.dividend := by
    apply regs_after_of_ne
    intro same
    exact absurd (Option.some.inj same) (old.trans_le replaces.newConstant).ne'
  have isConstant : (state.frame.after (.const constant (.i32 site.divisor))
      (some (intWord site.divisor))).regs constant = intWord site.divisor := by
    rw [regs_after_some _ _ rfl, Regs.set_same]
  have isType : (declOf rewritten (.binOp quotient .div site.dividend constant)).ty =
      some .i32 := by
    change (rewritten.registerTypes.get? quotient <|> _) = some .i32
    rw [replaces.isInt]
    rfl
  have divided : execute module host rewritten (.binOp quotient .div site.dividend constant)
      (state.frame.after (.const constant (.i32 site.divisor)) (some (intWord site.divisor)))
      state.world = .ok (quotientFrame site state.frame constant quotient, state.world) := by
    rw [execute_eq_ok]
    refine ⟨some (intWord (((state.frame.regs site.dividend).bits.setWidth 32).sdiv site.divisor)),
      ?_, rfl⟩
    simp only [eval, computing, resolved, isType, bind_ok, kept, isConstant,
      binop_intWord isInt nonzero notMinusOne]
    rfl
  have second : (machine module host rewritten).step { state with
      pc := state.pc + 1
      frame := state.frame.after (.const constant (.i32 site.divisor))
        (some (intWord site.divisor)) } = .inl { state with
      pc := state.pc + 2
      frame := quotientFrame site state.frame constant quotient } :=
    step_of_here found (replaces.here 1 (by decide)) divided
  rw [Machine.run_succ_of_next 1 first, Machine.run_succ_of_next 0 second]
  rfl

theorem eval_conversion (decl : Decl) (place : Site) (get : IrId → Word) (ty : IrType)
    (dest quotient : IrId) (world : World E) :
    eval module host decl place get (conversion ty dest quotient) world =
      computing world (converted ty (get quotient)) := by
  unfold conversion converted
  split_ifs
  · rfl
  · rfl

theorem conversion_writes (ty : IrType) (dest quotient : IrId) :
    (conversion ty dest quotient).writes = some dest := by
  unfold conversion
  split_ifs
  · rfl
  · rfl

theorem quotientFrame_quotient (site : QuotientSite) (frame : Frame) (constant quotient : IrId) :
    (quotientFrame site frame constant quotient).regs quotient =
      intWord (((frame.regs site.dividend).bits.setWidth 32).sdiv site.divisor) := by
  unfold quotientFrame
  rw [regs_after_some _ _ rfl, Regs.set_same]

theorem quotientFrame_other (frame : Frame) {reg : IrId} (notConstant : reg ≠ constant)
    (notQuotient : reg ≠ quotient) :
    (quotientFrame site frame constant quotient).regs reg = frame.regs reg := by
  calc (quotientFrame site frame constant quotient).regs reg
      = (frame.after (.const constant (.i32 site.divisor))
          (some (intWord site.divisor))).regs reg := by
        unfold quotientFrame
        apply regs_after_of_ne
        exact fun same => notQuotient (Option.some.inj same).symm
    _ = frame.regs reg := by
        apply regs_after_of_ne
        exact fun same => notConstant (Option.some.inj same).symm

theorem run_replacement (found : rewritten.getBlock state.block = some block)
    (replaces : Replaces function rewritten site block.instructions state.pc constant quotient)
    (old : site.dividend < function.nextRegId) (isInt : (state.frame.regs site.dividend).mt = .i32)
    (nonzero : site.divisor ≠ 0) (notMinusOne : site.divisor ≠ -1) {word : Word}
    (isWord : converted (destType function site.dest) (intWord
      (((state.frame.regs site.dividend).bits.setWidth 32).sdiv site.divisor)) = .ok word) :
    (machine module host rewritten).run 3 state =
      .inl { state with
        pc := state.pc + 3
        frame := (quotientFrame site state.frame constant quotient).after
          (conversion (destType function site.dest) site.dest quotient) (some word) } := by
  have third : (machine module host rewritten).step { state with
      pc := state.pc + 2
      frame := quotientFrame site state.frame constant quotient } = .inl { state with
      pc := state.pc + 3
      frame := (quotientFrame site state.frame constant quotient).after
        (conversion (destType function site.dest) site.dest quotient) (some word) } := by
    refine step_of_here found (replaces.here 2 (by decide)) ?_
    rw [execute_eq_ok]
    refine ⟨some word, ?_, rfl⟩
    rw [eval_conversion, quotientFrame_quotient, isWord]
    rfl
  rw [Machine.run_add 2 1 (run_quotient found replaces old isInt nonzero notMinusOne),
    Machine.run_succ_of_next 0 third]
  rfl

theorem fault_of_replacement (found : rewritten.getBlock state.block = some block)
    (replaces : Replaces function rewritten site block.instructions state.pc constant quotient)
    (old : site.dividend < function.nextRegId) (isInt : (state.frame.regs site.dividend).mt = .i32)
    (nonzero : site.divisor ≠ 0) (notMinusOne : site.divisor ≠ -1) {fault : Fault}
    (faults : converted (destType function site.dest) (intWord
      (((state.frame.regs site.dividend).bits.setWidth 32).sdiv site.divisor)) = .error fault) :
    (machine module host rewritten).run 3 state = .inr (.faulted fault state.world) := by
  have third : (machine module host rewritten).step { state with
      pc := state.pc + 2
      frame := quotientFrame site state.frame constant quotient } =
        .inr (.faulted fault state.world) := by
    refine step_of_fault found (replaces.here 2 (by decide)) ?_
    unfold execute
    rw [eval_conversion, quotientFrame_quotient, faults]
    rfl
  rw [Machine.run_add 2 1 (run_quotient found replaces old isInt nonzero notMinusOne),
    Machine.run_succ_of_outcome 0 third]

end Replacement

/-! ### Both deliver the quotient -/

/-- What the pass makes of a module. -/
def runOnModule (module : IrModule) : IrModule :=
  if (stdInt module).isEmpty then module
  else { module with
    functions := module.functions.mapValues fun _ => rewrite (stdInt module) }

section Result

variable {E : Type}

/-- At a site, the call fills its destination with the quotient of the Ints. The
three instructions the pass puts in its place fill it with the same, narrowed
or widened to the destination's type, or fault where there is no conversion to
that type; no older register and nothing in the world is changed otherwise. -/
structure Delivers (module : IrModule) (host : Host E) (function : IrFunction)
    (site : QuotientSite) (state : State E) (quotient : BitVec 32) : Prop where
  called : ∃ block inst, function.getBlock site.block = some block ∧
    block.instructions[site.idx]? = some inst ∧ inst.writes = some site.dest ∧
    execute module host function inst state.frame state.world =
      .ok (state.frame.after inst (some (intWord quotient)), state.world)
  replaced : ∀ word, converted (destType function site.dest) (intWord quotient) = .ok word →
    ∃ last, (machine (runOnModule module) host (rewrite (stdInt module) function)).run 3
        { state with
          pc := shifted (sites (stdInt module) function) site.block site.idx } = .inl last ∧
      last.block = site.block ∧
      last.pc = shifted (sites (stdInt module) function) site.block site.idx + 3 ∧
      last.world = state.world ∧ last.frame.regs site.dest = word ∧
      ∀ reg < function.nextRegId, reg ≠ site.dest →
        last.frame.regs reg = state.frame.regs reg
  faulted : ∀ fault, converted (destType function site.dest) (intWord quotient) = .error fault →
    (machine (runOnModule module) host (rewrite (stdInt module) function)).run 3
      { state with pc := shifted (sites (stdInt module) function) site.block site.idx } =
        .inr (.faulted fault state.world)
  resized : ∀ mt, Mt.of (destType function site.dest) = some mt →
    mt = .i8 ∨ mt = .i32 ∨ mt = .i64 →
    converted (destType function site.dest) (intWord quotient) =
      .ok ⟨mt, canon (quotient.signExtend 64) mt⟩

/-- A dividend is an operand of the conversion that makes it a Float. -/
theorem dividend_allocated {function : IrFunction} (allocated : Allocated function)
    {left dividend : IrId} (isSource : source (defs function) left = some (.value dividend)) :
    dividend < function.nextRegId := by
  unfold source at isSource
  split at isSource
  · next dest src defined =>
      cases isConst : intConst (defs function) src with
      | some constant =>
          rw [isConst] at isSource
          cases isSource
      | none =>
          rw [isConst] at isSource
          cases isSource
          obtain ⟨id, block, pc, found, here, -⟩ := definition_of_defs defined
          exact allocated found _ (List.mem_of_getElem? here) _ List.mem_cons_self
  · obtain ⟨constant, -, same⟩ := Option.map_eq_some_iff.mp isSource
    cases same
  · cases isSource

theorem delivers_at_site {module : IrModule} {host : Host E} {function : IrFunction}
    {frame : Frame} {world : World E} (ssa : SsaForm function) (agree : NamesAgree module)
    (allocated : Allocated function) {site : QuotientSite}
    (member : site ∈ sites (stdInt module) function) {state : State E}
    (runs : Runs module host function frame world state)
    (here : pointOf state = (site.block, site.idx))
    (isInt : (state.frame.regs site.dividend).mt = .i32) :
    Delivers module host function site state
      (((state.frame.regs site.dividend).bits.setWidth 32).sdiv site.divisor) := by
  obtain ⟨block, func, arg, left, right, typeArgs, isFound⟩ := found_of_mem member
  obtain ⟨block', found', -, atSites⟩ :=
    (@rewrites_rewrite function (stdInt module) allocated).blocks isFound.found
  obtain ⟨constant, quotient, replaces⟩ := atSites site member rfl
  have old : site.dividend < function.nextRegId :=
    dividend_allocated allocated isFound.dividend
  have oldDest : site.dest < function.nextRegId :=
    allocated isFound.found _ (List.mem_of_getElem? isFound.here) _
      (List.mem_append_right _ List.mem_cons_self)
  have isBlock : state.block = site.block := congrArg Prod.fst here
  rw [← isBlock] at found'
  generalize isPlace : shifted (sites (stdInt module) function) site.block site.idx = pc at replaces
  let moved : State E := { state with pc }
  have ranOn := @run_replacement E (runOnModule module) host function
    (rewrite (stdInt module) function) site moved block' constant quotient found' replaces old isInt
    isFound.nonzero isFound.notMinusOne
  have faultsOn := @fault_of_replacement E (runOnModule module) host function
    (rewrite (stdInt module) function) site moved block' constant quotient found' replaces old isInt
    isFound.nonzero isFound.notMinusOne
  refine ⟨?_, ?_, ?_, fun mt isMt fits => converted_integer isMt fits _⟩
  · refine ⟨block, _, isFound.found, isFound.here, rfl, ?_⟩
    rw [execute_eq_ok]
    exact ⟨_, callDirect_stdInt agree isFound.callee _ _ _
      (stdIntWord_at_site ssa runs isFound here isInt), rfl⟩
  · intro word isWord
    rw [isPlace]
    refine ⟨_, ranOn isWord, isBlock, rfl, rfl, ?_, fun reg isOld notDest => ?_⟩
    · rw [regs_after_some _ _ (conversion_writes _ _ _), Regs.set_same]
    · rw [regs_after_of_ne fun same =>
        notDest (Option.some.inj ((conversion_writes _ _ _).symm.trans same)).symm]
      exact quotientFrame_other _ (isOld.trans_le replaces.newConstant).ne
        (isOld.trans_le replaces.newQuotient).ne
  · intro fault faults
    rw [isPlace]
    exact faultsOn faults

end Result

/-! ### A third of an Int -/

def thirdsSignature : IrFunctionSignature where
  parameters := [{ name := "a", ty := .i32, reg := 0 }]
  returnType := .i64
  callingConvention := .haxe
  typeParams := []
  usesSret := false

/-- `Std.int(a / 3)` as a 64-bit integer -/
def thirds : IrFunction where
  name := "thirds"
  signature := thirdsSignature
  cfg :=
    { blocks := OrdMap.ofList [(0,
        { instructions := [.cast 1 0 .i32 .f64, .const 2 (.i32 3), .cast 3 2 .i32 .f64,
            .binOp 4 .div 1 3, .callDirect (some 5) 0 [4] []],
          terminator := .ret (some 5) })],
      entryBlock := 0, nextBlockId := 1 }
  locals := .empty
  registerTypes :=
    OrdMap.ofList [(0, .i32), (1, .f64), (2, .i32), (3, .f64), (4, .f64), (5, .i64)]
  externalLinkage := false
  nextRegId := 6
  typeParamTagFixups := []
  typeParamMetadataFixups := []

def thirdsModule : IrModule where
  functions := OrdMap.ofList [(1, thirds)]
  externFunctions := OrdMap.ofList [(0,
    { name := "haxe_std_int"
      signature := { thirdsSignature with
        parameters := [{ name := "x", ty := .f64, reg := 0 }], callingConvention := .c } })]

theorem thirds_ssaForm : SsaForm thirds := by
  have checked : Checked thirds fun _ => [0] := of_decide_eq_true rfl
  exact checked.ssaForm

theorem thirdsModule_namesAgree : NamesAgree thirdsModule := by
  intro func ext function isExtern isFunction
  have first := (OrdMap.mem_entries_iff _ _ _).mpr isExtern
  have second := (OrdMap.mem_entries_iff _ _ _).mpr isFunction
  have isZero : func = 0 := congrArg Prod.fst (List.mem_singleton.mp first)
  have isOne : func = 1 := congrArg Prod.fst (List.mem_singleton.mp second)
  exact absurd (isZero.symm.trans isOne) (by decide)

theorem thirds_allocated : Allocated thirds := by
  intro id block found inst member reg named
  have only := List.mem_singleton.mp (getBlock_eq_some_iff.mp found)
  cases only
  have each : ∀ inst ∈ ([.cast 1 0 .i32 .f64, .const 2 (.i32 3), .cast 3 2 .i32 .f64,
      .binOp 4 .div 1 3, .callDirect (some 5) 0 [4] []] : List IrInstruction),
      ∀ reg ∈ inst.uses ++ inst.dest.toList, reg < 6 := by
    simp only [List.forall_mem_cons, IrInstruction.uses, IrInstruction.dest, Option.toList]
    decide
  exact each inst member reg named

end Rayzor.Passes.IntQuotient
