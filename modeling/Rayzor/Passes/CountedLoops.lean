import Rayzor.Passes.TripCounts
import Rayzor.Ssa.Checked
import Rayzor.Ssa.Equations
import Rayzor.Ssa.Reads

/-!
Contract: constant trip counts against runs of the loops they are given for.

Owns: the words that an induction variable goes through, the iterations of a loop,
and at which iteration the tested exit is taken.
-/

namespace Rayzor.Passes.CountedLoops

open Ir Interp Library Library.Graph Ssa TripCounts

/-! ### Integers in registers -/

def numeral (mt : Mt) (value : Int) : Word := ⟨mt, canon (BitVec.ofInt 64 value) mt⟩

/-- The register types that constants of the analysis have. -/
def Counts (mt : Mt) : Prop := mt = .i32 ∨ mt = .i64

section Words

variable {mt : Mt}

theorem bits_of_counts (counts : Counts mt) : mt.bits = 32 ∨ mt.bits = 64 := by
  rcases counts with rfl | rfl
  · exact Or.inl rfl
  · exact Or.inr rfl

theorem constantWord_of_intValue {constant : IrValue} {value : Int}
    (isInt : intValue constant = some value) {word : Word} (isWord : constantWord constant = some word) :
    word = numeral word.mt value ∧ Fits word.mt.bits value := by
  cases constant
  case i32 bits =>
    cases isInt
    cases isWord
    refine ⟨?_, BitVec.le_toInt bits, BitVec.toInt_lt⟩
    rw [numeral, canon_toInt]
  case i64 bits =>
    cases isInt
    cases isWord
    refine ⟨?_, BitVec.le_toInt bits, BitVec.toInt_lt⟩
    simp [numeral, canon]
  all_goals cases isInt

theorem phiWord_numeral {ty : IrType} (isType : Mt.phi ty = mt) (value : Int) :
    phiWord ty (numeral mt value) = .ok (numeral mt value) := by
  simp [phiWord, numeral, isType, phiCoercion, convert, pure, Except.pure]

/-- The low half of an integer. -/
theorem low_ofInt (value : Int) : (BitVec.ofInt 64 value).setWidth 32 = BitVec.ofInt 32 value := by
  apply BitVec.eq_of_toInt_eq
  rw [low_toInt, BitVec.toInt_ofInt, BitVec.toInt_ofInt]
  exact Int.bmod_bmod_of_dvd (by decide)

theorem ofInt_sub (width : Nat) (x y : Int) :
    BitVec.ofInt width (x - y) = BitVec.ofInt width x - BitVec.ofInt width y := by
  rw [Int.sub_eq_add_neg, BitVec.ofInt_add, BitVec.ofInt_neg, BitVec.sub_eq_add_neg]

theorem canon_add (counts : Counts mt) (x y : Int) :
    canon (canon (BitVec.ofInt 64 x) mt + canon (BitVec.ofInt 64 y) mt) mt =
      canon (BitVec.ofInt 64 (x + y)) mt := by
  rcases counts with rfl | rfl
  · rw [canon_i32, canon_i32, canon_i32, canon_i32, low_add, low_ofInt, low_ofInt, low_ofInt,
      BitVec.ofInt_add]
  · simp [canon, BitVec.ofInt_add]

theorem canon_sub (counts : Counts mt) (x y : Int) :
    canon (canon (BitVec.ofInt 64 x) mt - canon (BitVec.ofInt 64 y) mt) mt =
      canon (BitVec.ofInt 64 (x - y)) mt := by
  rcases counts with rfl | rfl
  · rw [canon_i32, canon_i32, canon_i32, canon_i32, low_sub, low_ofInt, low_ofInt, low_ofInt,
      ofInt_sub]
  · simp [canon, ofInt_sub]

theorem binop_add {ty : IrType} (counts : Counts mt) (isType : expectedMt ty = mt) (x y : Int) :
    binop ty .add (numeral mt x) (numeral mt y) = .ok (numeral mt (x + y)) := by
  have sum := canon_add counts x y
  rcases counts with rfl | rfl
  all_goals
    simp [binop, numeral, isType, operationMt, largerMt, usesFloat, operandConv, finalConv,
      integerOnly, floatNamed, Mt.isInt, Mt.isFloat, Mt.bits, intOp, ibin, sum]

theorem binop_sub {ty : IrType} (counts : Counts mt) (isType : expectedMt ty = mt) (x y : Int) :
    binop ty .sub (numeral mt x) (numeral mt y) = .ok (numeral mt (x - y)) := by
  have difference := canon_sub counts x y
  rcases counts with rfl | rfl
  all_goals
    simp [binop, numeral, isType, operationMt, largerMt, usesFloat, operandConv, finalConv,
      integerOnly, floatNamed, Mt.isInt, Mt.isFloat, Mt.bits, intOp, ibin, difference]

theorem sext_numeral (counts : Counts mt) (value : Int) :
    (sext (numeral mt value).bits mt).toInt = wrapped mt.bits value := by
  rcases counts with rfl | rfl
  · simp only [numeral, canon_i32, sext_i32, Mt.bits, wrapped]
    rw [BitVec.toInt_signExtend_of_le (by decide), low_toInt, BitVec.toInt_ofInt]
    exact Int.bmod_bmod_of_dvd (by decide)
  · simp [numeral, canon, sext, Mt.bits, wrapped, BitVec.toInt_ofInt]

theorem canon_numeral (counts : Counts mt) {x y : Int} :
    canon (numeral mt x).bits mt = canon (numeral mt y).bits mt ↔
      wrapped mt.bits x = wrapped mt.bits y := by
  rw [← sext_numeral counts x, ← sext_numeral counts y, BitVec.toInt_inj]
  rcases counts with rfl | rfl
  · simp only [numeral, canon_canon]
    rw [canon_i32, canon_i32, sext_i32, sext_i32, signExtend_inj, setWidth_inj]
  · rfl

def comparesInts : CompareOp → Bool
  | .eq | .ne | .lt | .le | .gt | .ge => true
  | _ => false

theorem cmp_numeral {op : CompareOp} (compares : comparesInts op = true) (counts : Counts mt) (ty : IrType)
    (x y : Int) : Interp.cmp ty op (numeral mt x) (numeral mt y) =
      .ok (truth (keepsGoing (wrapped mt.bits x) op (wrapped mt.bits y))) := by
  have first := sext_numeral counts x
  have second := sext_numeral counts y
  have same := canon_numeral counts (x := x) (y := y)
  have notFloat : mt.isFloat = false := by rcases counts with rfl | rfl <;> rfl
  have plain : ∀ cc, isFloatCompare op = false → intCc op = some cc →
      Interp.cmp ty op (numeral mt x) (numeral mt y) =
        .ok (truth (icmp cc mt (numeral mt x).bits (numeral mt y).bits)) := by
    intro cc notFloatCompare isCc
    simp [Interp.cmp, numeral, notFloat, notFloatCompare, isCc]
  cases op
  case eq =>
    rw [plain _ rfl rfl]
    simp only [icmp, keepsGoing]
    rw [Bool.beq_eq_decide_eq, decide_eq_decide.mpr same]
  case ne =>
    rw [plain _ rfl rfl]
    simp only [icmp, keepsGoing]
    rw [bne, Bool.beq_eq_decide_eq, decide_eq_decide.mpr same, decide_not]
  case lt | le | gt | ge =>
    rw [plain _ rfl rfl]
    simp only [icmp, keepsGoing, BitVec.slt, BitVec.sle, first, second]
  all_goals cases compares

end Words

/-! ### What the analysis found -/

section Found

variable {function : IrFunction} {header : IrBlockId} {loopBlocks : List IrBlockId}
  {info : LoopInductionInfo}

/-- The test of the induction variable. -/
def testOf (function : IrFunction) (header : IrBlockId) (loopBlocks : List IrBlockId) (iv : IrId) :
    Option (IrBlockId × Int × CompareOp) :=
  findLoopTest function iv loopBlocks (blocksToCheck loopBlocks header)

/-- What stands behind a count. -/
structure Found (function : IrFunction) (header : IrBlockId) (loopBlocks : List IrBlockId)
    (info : LoopInductionInfo) (test : IrBlockId) (op : CompareOp) : Prop where
  phi : ∃ block, function.getBlock header = some block ∧
    ∃ phi ∈ block.phiNodes, phi.dest = info.ivPhi
  init : findConstValue function info.initVal = some info.initConst
  step : findStepInstruction function info.stepVal info.ivPhi loopBlocks =
    some (.ok info.stepAmount)
  bound : testOf function header loopBlocks info.ivPhi = some (test, info.boundConst, op)
  count : computeTripCount info.initConst info.boundConst info.stepAmount op =
    .ok (some info.tripCount)

theorem inductionPhi_phi {phi found : IrPhiNode} {stepVal initVal : IrId}
    (isInduction : inductionPhi loopBlocks phi = some (found, stepVal, initVal)) : found = phi := by
  unfold inductionPhi at isInduction
  cases values : incomingValues loopBlocks phi with
  | mk inside outside =>
      rw [values] at isInduction
      cases inside with
      | none => cases isInduction
      | some stepReg =>
          cases outside with
          | none => cases isInduction
          | some initReg =>
              cases isInduction
              rfl

theorem found_of_analysis
    (analyzed : analyzeLoopTripCount function header loopBlocks = .ok (some info)) :
    ∃ test op, Found function header loopBlocks info test op := by
  unfold analyzeLoopTripCount at analyzed
  cases candidate : (function.getBlock header).bind fun block =>
      block.phiNodes.findSome? (inductionPhi loopBlocks) with
  | none => simp [candidate] at analyzed
  | some entry =>
      obtain ⟨phi, stepVal, initVal⟩ := entry
      simp only [candidate] at analyzed
      obtain ⟨block, found, among⟩ := Option.bind_eq_some_iff.mp candidate
      obtain ⟨phi', member, isInduction⟩ := List.exists_of_findSome?_eq_some among
      cases inductionPhi_phi isInduction
      cases isInit : findConstValue function initVal with
      | none => simp [isInit] at analyzed
      | some initConst =>
          simp only [isInit] at analyzed
          cases isStep : findStepInstruction function stepVal phi.dest loopBlocks with
          | none => simp [isStep] at analyzed
          | some step =>
              simp only [isStep] at analyzed
              obtain ⟨stepAmount, isAmount, continued⟩ := bind_eq_ok.mp analyzed
              subst isAmount
              cases isBound : findLoopBound function phi.dest loopBlocks header with
              | none => simp [isBound] at continued
              | some entry =>
                  obtain ⟨boundConst, op⟩ := entry
                  simp only [isBound] at continued
                  obtain ⟨count, counts, given⟩ := bind_eq_ok.mp continued
                  obtain ⟨n, rfl, rfl⟩ := Option.map_eq_some_iff.mp (Except.ok.inj given)
                  obtain ⟨⟨test, bound⟩, isTest, same⟩ := Option.map_eq_some_iff.mp isBound
                  cases same
                  exact ⟨test, op, ⟨block, found, phi, member, rfl⟩, isInit, isStep, isTest, counts⟩

theorem step_instruction {stepReg iv : IrId} {amount : Int}
    (isStep : findStepInstruction function stepReg iv loopBlocks = some (.ok amount)) :
    ∃ inst ∈ loopInstructions function loopBlocks,
      (∃ constant, inst = .binOp stepReg .add iv constant ∧
        findConstValue function constant = some amount) ∨
      (∃ constant, inst = .binOp stepReg .add constant iv ∧
        findConstValue function constant = some amount) ∨
      ∃ constant value, inst = .binOp stepReg .sub iv constant ∧
        findConstValue function constant = some value ∧ amount = -value := by
  obtain ⟨inst, member, isStep⟩ := List.exists_of_findSome?_eq_some isStep
  refine ⟨inst, member, ?_⟩
  cases inst
  case binOp dest op left right =>
    simp only [stepOf] at isStep
    by_cases isDest : dest = stepReg
    · subst isDest
      rw [if_pos rfl] at isStep
      cases op
      case add =>
        obtain ⟨value, among, same⟩ := Option.map_eq_some_iff.mp isStep
        cases same
        simp only [Option.orElse_eq_orElse, Option.orElse_eq_or, Option.or_eq_some_iff,
          Option.ite_none_right_eq_some] at among
        rcases among with ⟨rfl, isConst⟩ | ⟨-, rfl, isConst⟩
        · exact Or.inl ⟨right, rfl, isConst⟩
        · exact Or.inr (Or.inl ⟨left, rfl, isConst⟩)
      case sub =>
        obtain ⟨value, among, negated⟩ := Option.map_eq_some_iff.mp isStep
        obtain ⟨onLeft, isConst⟩ := Option.ite_none_right_eq_some.mp among
        refine Or.inr (Or.inr ⟨right, value, by rw [onLeft], isConst, ?_⟩)
        unfold i64 checked at negated
        split_ifs at negated
        · exact (Except.ok.inj negated).symm
      all_goals cases isStep
    · rw [if_neg isDest] at isStep
      cases isStep
  all_goals cases isStep

/-- The comparison the other way round. -/
theorem keepsGoing_swap {op : CompareOp} (compares : comparesInts op = true) (x y : Int) :
    keepsGoing y op x = keepsGoing x (swapCmp op) y := by
  cases op
  case eq | ne => simp only [keepsGoing, swapCmp, eq_comm, ne_comm]
  case lt | le | gt | ge => rfl
  all_goals cases compares

theorem keepsGoing_negate {op : CompareOp} (compares : comparesInts op = true) (x y : Int) :
    keepsGoing x (negateCmp op) y = !keepsGoing x op y := by
  cases op
  case eq | ne => simp [keepsGoing, negateCmp]
  case lt | le | gt | ge => simp only [keepsGoing, negateCmp, ← decide_not, not_lt, not_le]
  all_goals cases compares

theorem compares_of_count {init bound step : Int} {op : CompareOp} {n : Nat}
    (counts : computeTripCount init bound step op = .ok (some n)) : comparesInts op = true := by
  have approaches := (approaches_of_count counts).1
  cases op
  case lt | le | gt | ge | ne => rfl
  all_goals exact approaches.elim

theorem comparesInts_negate (op : CompareOp) : comparesInts (negateCmp op) = comparesInts op := by
  cases op <;> rfl

theorem comparesInts_swap (op : CompareOp) : comparesInts (swapCmp op) = comparesInts op := by
  cases op <;> rfl

structure Tests (function : IrFunction) (loopBlocks : List IrBlockId) (iv : IrId)
    (block : IrBasicBlock) (bound : Int) (op : CompareOp) (condition left right : IrId)
    (compareOp : CompareOp) (trueTarget falseTarget : IrBlockId) : Prop where
  branch : block.terminator = .condBranch condition trueTarget falseTarget
  oneInside : ¬(trueTarget ∈ loopBlocks ↔ falseTarget ∈ loopBlocks)
  compare : .cmp condition compareOp left right ∈ block.instructions
  sides : left = iv ∧ findConstValue function right = some bound ∧
      op = (if trueTarget ∈ loopBlocks then compareOp else negateCmp compareOp) ∨
    right = iv ∧ findConstValue function left = some bound ∧
      op = if trueTarget ∈ loopBlocks then swapCmp compareOp else negateCmp (swapCmp compareOp)

theorem tests_of_blockTest {iv : IrId} {block : IrBasicBlock} {bound : Int} {op : CompareOp}
    (isTest : blockTest function iv loopBlocks block = some (bound, op)) :
    ∃ condition left right compareOp trueTarget falseTarget,
      Tests function loopBlocks iv block bound op condition left right compareOp trueTarget
        falseTarget := by
  obtain ⟨⟨condition, trueIn⟩, isBranch, among⟩ := Option.bind_eq_some_iff.mp isTest
  obtain ⟨inst, member, isBound⟩ := List.exists_of_findSome?_eq_some among
  unfold exitBranch at isBranch
  cases branch : block.terminator with
  | condBranch condition' trueTarget falseTarget =>
      rw [branch] at isBranch
      simp only [Option.ite_none_left_eq_some, Option.some.injEq, Prod.mk.injEq] at isBranch
      obtain ⟨oneInside, rfl, rfl⟩ := isBranch
      cases inst
      case cmp dest compareOp left right =>
        simp only [boundOf] at isBound
        obtain ⟨rfl, isBound⟩ := Option.ite_none_right_eq_some.mp isBound
        simp only [Option.orElse_eq_orElse, Option.orElse_eq_or, Option.or_eq_some_iff,
          Option.ite_none_right_eq_some, Option.map_eq_some_iff, Prod.mk.injEq,
          decide_eq_true_eq] at isBound
        refine ⟨dest, left, right, compareOp, trueTarget, falseTarget, branch, ?_, member, ?_⟩
        · simpa [decide_eq_decide] using oneInside
        · rcases isBound with ⟨onLeft, value, isConst, rfl, rfl⟩ |
            ⟨-, onRight, value, isConst, rfl, rfl⟩
          · exact Or.inl ⟨onLeft, isConst, rfl⟩
          · exact Or.inr ⟨onRight, isConst, rfl⟩
      all_goals cases isBound
  | _ => simp [branch] at isBranch

theorem mem_of_findLoopTest {iv : IrId} {ids : List IrBlockId} {test : IrBlockId}
    {bound : Int × CompareOp} (isTest : findLoopTest function iv loopBlocks ids = some (test, bound)) :
    test ∈ ids ∧ ∃ block, function.getBlock test = some block ∧
      blockTest function iv loopBlocks block = some bound := by
  induction ids with
  | nil => cases isTest
  | cons id rest ih =>
      unfold findLoopTest at isTest
      cases found : function.getBlock id with
      | none => simp [found] at isTest
      | some block =>
          simp only [found] at isTest
          cases tested : blockTest function iv loopBlocks block with
          | some entry =>
              simp only [tested] at isTest
              cases isTest
              exact ⟨List.mem_cons_self, block, found, tested⟩
          | none =>
              simp only [tested] at isTest
              obtain ⟨member, holds⟩ := ih isTest
              exact ⟨List.mem_cons_of_mem _ member, holds⟩

theorem test_inside (headerInside : header ∈ loopBlocks) {iv : IrId} {test : IrBlockId}
    {bound : Int × CompareOp} (isTest : testOf function header loopBlocks iv = some (test, bound)) :
    test ∈ loopBlocks ∧ ∃ block, function.getBlock test = some block ∧
      blockTest function iv loopBlocks block = some bound := by
  obtain ⟨member, holds⟩ := mem_of_findLoopTest isTest
  refine ⟨?_, holds⟩
  rcases List.mem_cons.mp member with rfl | other
  · exact headerInside
  · exact (List.mem_filter.mp other).1

end Found

/-! ### Loops with one induction variable -/

/-- The constant of a register has this register type. -/
def ConstantAt (function : IrFunction) (mt : Mt) (reg : IrId) : Prop :=
  ∀ constant word, findConst function reg = some constant → constantWord constant = some word →
    word.mt = mt

/-- The induction variable, its constants, its step and its test are of one type. -/
structure OneType (function : IrFunction) (header : IrBlockId) (loopBlocks : List IrBlockId)
    (info : LoopInductionInfo) (test : IrBlockId) (mt : Mt) : Prop where
  counts : Counts mt
  phi : ∀ {block phi}, function.getBlock header = some block → phi ∈ block.phiNodes →
    phi.dest = info.ivPhi → Mt.phi phi.ty = mt
  init : ConstantAt function mt info.initVal
  step : ∀ {op left right}, .binOp info.stepVal op left right ∈ loopInstructions function loopBlocks →
    (∃ ty, binopType function info.stepVal left right = some ty ∧ expectedMt ty = mt) ∧
      ConstantAt function mt left ∧ ConstantAt function mt right
  test : ∀ {block dest op left right}, function.getBlock test = some block →
    .cmp dest op left right ∈ block.instructions → (left = info.ivPhi ∨ right = info.ivPhi) →
    (cmpType function left).isSome = true ∧ ConstantAt function mt left ∧
      ConstantAt function mt right

/-- The blocks that an iteration can come to without having been tested. -/
inductive Untested (function : IrFunction) (header : IrBlockId) (loopBlocks : List IrBlockId)
    (test : IrBlockId) : IrBlockId → Prop where
  | header (notTest : header ≠ test) : Untested function header loopBlocks test header
  | next {id target : IrBlockId} (before : Untested function header loopBlocks test id)
      (along : BlockEdge function id target) (inside : target ∈ loopBlocks)
      (notHeader : target ≠ header) (notTest : target ≠ test) :
      Untested function header loopBlocks test target

/-- A loop that its induction variable alone controls: the phi has one value from within and one
from outside, every way round comes by the test, and no other block leaves. -/
structure Regular (function : IrFunction) (header : IrBlockId) (loopBlocks : List IrBlockId)
    (info : LoopInductionInfo) (test : IrBlockId) (mt : Mt) : Prop where
  headerInside : header ∈ loopBlocks
  oneType : OneType function header loopBlocks info test mt
  oneValue : ∀ {block phi entry}, function.getBlock header = some block → phi ∈ block.phiNodes →
    phi.dest = info.ivPhi → entry ∈ phi.incoming →
    entry.2 = if entry.1 ∈ loopBlocks then info.stepVal else info.initVal
  tested : ∀ {id}, Untested function header loopBlocks test id → ¬BlockEdge function id header
  oneExit : ∀ {id block target}, id ∈ loopBlocks → function.getBlock id = some block →
    target ∈ block.successors → target ∉ loopBlocks → id = test
  noReturn : ∀ {id block value}, id ∈ loopBlocks → function.getBlock id = some block →
    block.terminator ≠ .ret value

/-! ### Runs -/

section Runs

variable {E : Type} {module : IrModule} {host : Host E} {function : IrFunction} {frame : Frame}
  {world : World E} {header : IrBlockId} {loopBlocks : List IrBlockId}

structure Entered (module : IrModule) (host : Host E) (function : IrFunction) (frame : Frame)
    (world : World E) (header : IrBlockId) (loopBlocks : List IrBlockId) (first : State E) :
    Prop where
  atHeader : first.block = header
  before : ∃ state, Runs module host function frame world state ∧ state.block ∉ loopBlocks ∧
    Stepped module host function state first

/-- The states of one execution of the loop, with the number of complete iterations. -/
inductive Iterates (module : IrModule) (host : Host E) (function : IrFunction)
    (header : IrBlockId) (loopBlocks : List IrBlockId) (first : State E) : State E → Nat → Prop where
  | entered : Iterates module host function header loopBlocks first first 0
  | within {state next : State E} {done : Nat}
      (before : Iterates module host function header loopBlocks first state done)
      (stepped : Stepped module host function state next) (inside : next.block ∈ loopBlocks)
      (notBack : pointOf next ≠ (header, 0)) :
      Iterates module host function header loopBlocks first next done
  | back {state next : State E} {done : Nat}
      (before : Iterates module host function header loopBlocks first state done)
      (stepped : Stepped module host function state next) (isBack : pointOf next = (header, 0)) :
      Iterates module host function header loopBlocks first next (done + 1)

theorem word_of_const {mt : Mt} {reg : IrId} {value : Int}
    (isConst : findConstValue function reg = some value) (isType : ConstantAt function mt reg) :
    ∃ constant, findConst function reg = some constant ∧
      constantWord constant = some (numeral mt value) ∧ Fits mt.bits value := by
  obtain ⟨constant, found, isInt⟩ := Option.bind_eq_some_iff.mp isConst
  obtain ⟨word, isWord⟩ : ∃ word, constantWord constant = some word := by
    cases constant
    case i32 => exact ⟨_, rfl⟩
    case i64 => exact ⟨_, rfl⟩
    all_goals cases isInt
  have made := constantWord_of_intValue isInt isWord
  rw [isType constant word found isWord] at made
  exact ⟨constant, found, made.1 ▸ isWord, made.2⟩

theorem regs_of_const (ssa : SsaForm function) {mt : Mt} {reg : IrId} {value : Int}
    (isConst : findConstValue function reg = some value) (isType : ConstantAt function mt reg)
    {state : State E} (runs : Runs module host function frame world state)
    (available : Available function reg (pointOf state)) :
    state.frame.regs reg = numeral mt value ∧ Fits mt.bits value := by
  obtain ⟨constant, found, isWord, fits⟩ := word_of_const isConst isType
  obtain ⟨inst, member, isHere⟩ := List.exists_of_findSome?_eq_some found
  obtain ⟨block, inFunction, inBlock⟩ := List.mem_flatMap.mp member
  obtain ⟨id, foundBlock⟩ := (OrdMap.mem_values_iff _ block).mp inFunction
  obtain ⟨pc, here⟩ := List.mem_iff_getElem?.mp inBlock
  cases inst
  case const dest constant' =>
    obtain ⟨rfl, same⟩ := Option.ite_none_right_eq_some.mp isHere
    cases same
    have holds := ssa.equation foundBlock here rfl
      (fun _ => by simp [pureValue, isWord]) runs available
    simp only [pureValue, isWord, Option.map_some, Option.some.injEq, Except.ok.injEq] at holds
    exact ⟨holds.symm, fits⟩
  all_goals cases isHere

theorem available_operand (ssa : SsaForm function) {id : IrBlockId} {block : IrBasicBlock}
    {pc : Nat} {inst : IrInstruction} {dest operand : IrId} {point : Point}
    (found : function.getBlock id = some block) (here : block.instructions[pc]? = some inst)
    (writes : inst.writes = some dest) (used : operand ∈ inst.uses)
    (available : Available function dest point) : Available function operand point := by
  have defines : DefinesAt function dest (id, pc + 1) := .instruction found here writes
  apply (ssa.operands found here operand used).of_dominated
  exact (dominates_next id pc).trans (ssa.dominates defines available)

theorem mem_loopInstructions {inst : IrInstruction}
    (member : inst ∈ loopInstructions function loopBlocks) :
    ∃ (id : IrBlockId) (block : IrBasicBlock) (pc : Nat), function.getBlock id = some block ∧
      block.instructions[pc]? = some inst := by
  obtain ⟨block, inLoop, inBlock⟩ := List.mem_flatMap.mp member
  obtain ⟨id, -, found⟩ := List.mem_filterMap.mp inLoop
  obtain ⟨pc, here⟩ := List.mem_iff_getElem?.mp inBlock
  exact ⟨id, block, pc, found, here⟩

theorem regs_of_step (ssa : SsaForm function) {info : LoopInductionInfo} {test : IrBlockId}
    {op : CompareOp} {mt : Mt} (found : Found function header loopBlocks info test op)
    (oneType : OneType function header loopBlocks info test mt) {state : State E}
    (runs : Runs module host function frame world state) {value : Int}
    (isValue : state.frame.regs info.ivPhi = numeral mt value)
    (available : Available function info.stepVal (pointOf state)) :
    state.frame.regs info.stepVal = numeral mt (value + info.stepAmount) := by
  obtain ⟨inst, member, cases'⟩ := step_instruction found.step
  obtain ⟨id, block, pc, foundBlock, here⟩ := mem_loopInstructions member
  rcases cases' with ⟨constant, rfl, isConst⟩ | ⟨constant, rfl, isConst⟩ |
    ⟨constant, amount, rfl, isConst, negated⟩
  · obtain ⟨⟨ty, isType, expected⟩, -, constantType⟩ := oneType.step member
    have given := (regs_of_const ssa isConst constantType runs
      (available_operand ssa foundBlock here rfl (by simp [IrInstruction.uses]) available)).1
    have holds := ssa.equation foundBlock here rfl (fun _ => rfl) runs available
    simp only [pureValue, declOf, isType, resolved, bind_ok, isValue, given,
      binop_add oneType.counts expected, Option.some.injEq, Except.ok.injEq] at holds
    exact holds.symm
  · obtain ⟨⟨ty, isType, expected⟩, constantType, -⟩ := oneType.step member
    have given := (regs_of_const ssa isConst constantType runs
      (available_operand ssa foundBlock here rfl (by simp [IrInstruction.uses]) available)).1
    have holds := ssa.equation foundBlock here rfl (fun _ => rfl) runs available
    simp only [pureValue, declOf, isType, resolved, bind_ok, isValue, given,
      binop_add oneType.counts expected, Option.some.injEq, Except.ok.injEq] at holds
    rw [← holds, Int.add_comm]
  · obtain ⟨⟨ty, isType, expected⟩, -, constantType⟩ := oneType.step member
    have given := (regs_of_const ssa isConst constantType runs
      (available_operand ssa foundBlock here rfl (by simp [IrInstruction.uses]) available)).1
    have holds := ssa.equation foundBlock here rfl (fun _ => rfl) runs available
    simp only [pureValue, declOf, isType, resolved, bind_ok, isValue, given,
      binop_sub oneType.counts expected, Option.some.injEq, Except.ok.injEq] at holds
    rw [← holds, negated, Int.sub_eq_add_neg]

theorem phi_received (ssa : SsaForm function) {info : LoopInductionInfo} {test : IrBlockId}
    {op : CompareOp} {mt : Mt} (found : Found function header loopBlocks info test op)
    (regular : Regular function header loopBlocks info test mt) {state next : State E}
    (runs : Runs module host function frame world state)
    (stepped : Stepped module host function state next) (arrives : pointOf next = (header, 0)) :
    ∃ value, value = (if state.block ∈ loopBlocks then info.stepVal else info.initVal) ∧
      Available function value (pointOf state) ∧
      ∀ constant, state.frame.regs value = numeral mt constant →
        next.frame.regs info.ivPhi = numeral mt constant := by
  obtain ⟨block, foundHeader, phi, member, isIv⟩ := found.phi
  cases stepped with
  | executed => cases arrives
  | @moved source target regs foundSource done chosen transferred =>
      obtain rfl : target = header := congrArg Prod.fst arrives
      obtain ⟨block', foundTarget, moved⟩ := moved_of_transfer transferred
      cases foundHeader.symm.trans foundTarget
      obtain ⟨value, taken, received⟩ := moved.phis (ssa.phisDistinct foundHeader) phi member
      have incoming := mem_incoming_of_valueFrom taken
      have isOne := regular.oneValue foundHeader member isIv incoming
      refine ⟨value, isOne, ?_, fun constant isConstant => ?_⟩
      · have atEnd : state.pc = source.instructions.length :=
          Nat.le_antisymm (pc_le_length runs foundSource) done
        have available := ssa.phis foundHeader member incoming foundSource
        rw [pointOf, atEnd]
        exact available
      · rw [isConstant, phiWord_numeral (regular.oneType.phi foundHeader member isIv)] at received
        rw [← isIv]
        exact (Except.ok.inj received).symm

/-- The word of the induction variable after so many iterations. -/
structure Counted (module : IrModule) (host : Host E) (function : IrFunction) (frame : Frame)
    (world : World E) (loopBlocks : List IrBlockId) (info : LoopInductionInfo) (mt : Mt)
    (state : State E) (done : Nat) : Prop where
  runs : Runs module host function frame world state
  inside : state.block ∈ loopBlocks
  value : state.frame.regs info.ivPhi = numeral mt (info.initConst + done * info.stepAmount)

theorem counted (ssa : SsaForm function) {info : LoopInductionInfo} {test : IrBlockId}
    {op : CompareOp} {mt : Mt} (found : Found function header loopBlocks info test op)
    (regular : Regular function header loopBlocks info test mt) {first : State E}
    (entered : Entered module host function frame world header loopBlocks first)
    {state : State E} {done : Nat}
    (iterates : Iterates module host function header loopBlocks first state done) :
    Counted module host function frame world loopBlocks info mt state done := by
  induction iterates with
  | entered =>
      obtain ⟨before, runs, outside, stepped⟩ := entered.before
      have arrives : pointOf first = (header, 0) := by
        cases stepped with
        | executed => exact absurd (entered.atHeader ▸ regular.headerInside) outside
        | moved => exact Prod.ext entered.atHeader rfl
      obtain ⟨value, isInit, available, received⟩ := phi_received ssa found regular runs stepped arrives
      rw [if_neg outside] at isInit
      subst isInit
      refine ⟨runs.next stepped, entered.atHeader ▸ regular.headerInside, received _ ?_⟩
      rw [(regs_of_const ssa found.init regular.oneType.init runs available).1]
      simp
  | within before stepped inside notBack ih =>
      obtain ⟨runs, -, isValue⟩ := ih
      refine ⟨runs.next stepped, inside, ?_⟩
      rw [regs_of_stepped stepped, isValue]
      intro defines
      obtain ⟨block, foundHeader, phi, member, isIv⟩ := found.phi
      exact notBack (ssa.single defines
        (.phi foundHeader (List.mem_map.mpr ⟨phi, member, isIv⟩)))
  | @back state next done before stepped isBack ih =>
      obtain ⟨runs, wasInside, isValue⟩ := ih
      obtain ⟨value, isStep, available, received⟩ := phi_received ssa found regular runs stepped isBack
      rw [if_pos wasInside] at isStep
      subst isStep
      have atHeader : next.block = header := congrArg Prod.fst isBack
      refine ⟨runs.next stepped, atHeader ▸ regular.headerInside, received _ ?_⟩
      rw [regs_of_step ssa found regular.oneType runs isValue available]
      push_cast
      congr 1
      ring

theorem condition_of_tests (ssa : SsaForm function) {info : LoopInductionInfo} {test : IrBlockId}
    {op : CompareOp} {mt : Mt} (goesOn : comparesInts op = true)
    (oneType : OneType function header loopBlocks info test mt) {block : IrBasicBlock}
    {condition left right : IrId} {trueTarget falseTarget : IrBlockId} {compareOp : CompareOp}
    (foundTest : function.getBlock test = some block)
    (tests : Tests function loopBlocks info.ivPhi block info.boundConst op condition left right
      compareOp trueTarget falseTarget)
    {state : State E} {value : Int} (runs : Runs module host function frame world state)
    (isValue : state.frame.regs info.ivPhi = numeral mt value)
    (available : Available function condition (pointOf state)) :
    ∃ result, state.frame.regs condition = truth result ∧
      keepsGoing (wrapped mt.bits value) op (wrapped mt.bits info.boundConst) =
        (if trueTarget ∈ loopBlocks then result else !result) ∧
      Fits mt.bits info.boundConst := by
  obtain ⟨pc, here⟩ := List.mem_iff_getElem?.mp tests.compare
  have sorts : comparesInts compareOp = true := by
    rcases tests.sides with ⟨-, -, same⟩ | ⟨-, -, same⟩
    all_goals
      rw [same] at goesOn
      split_ifs at goesOn
      all_goals simpa only [comparesInts_negate, comparesInts_swap] using goesOn
  have typed := oneType.test foundTest tests.compare
    (tests.sides.imp (fun side => side.1) fun side => side.1)
  obtain ⟨ty, isType⟩ := Option.isSome_iff_exists.mp typed.1
  have holds := ssa.equation foundTest here rfl (fun _ => rfl) runs available
  simp only [pureValue, declOf, isType, resolved, bind_ok, Option.some.injEq] at holds
  rcases tests.sides with ⟨onLeft, isConst, same⟩ | ⟨onRight, isConst, same⟩
  · have bound := regs_of_const ssa isConst typed.2.2 runs
      (available_operand ssa foundTest here rfl (by simp [IrInstruction.uses]) available)
    rw [onLeft, isValue, bound.1, cmp_numeral sorts oneType.counts] at holds
    refine ⟨_, (Except.ok.inj holds).symm, ?_, bound.2⟩
    rw [same]
    split_ifs
    · rfl
    · exact keepsGoing_negate sorts _ _
  · have bound := regs_of_const ssa isConst typed.2.1 runs
      (available_operand ssa foundTest here rfl (by simp [IrInstruction.uses]) available)
    rw [onRight, isValue, bound.1, cmp_numeral sorts oneType.counts, keepsGoing_swap sorts] at holds
    refine ⟨_, (Except.ok.inj holds).symm, ?_, bound.2⟩
    rw [same]
    split_ifs
    · rfl
    · exact keepsGoing_negate (by rwa [comparesInts_swap]) _ _

theorem chosen_inside {regs : Regs} {condition : IrId} {trueTarget falseTarget target : IrBlockId}
    {result : Bool} (oneInside : ¬(trueTarget ∈ loopBlocks ↔ falseTarget ∈ loopBlocks))
    (chosen : chosenTarget regs (.condBranch condition trueTarget falseTarget) = some target)
    (isResult : regs condition = truth result) :
    target ∈ loopBlocks ↔ (if trueTarget ∈ loopBlocks then result else !result) = true := by
  rw [chosenTarget, isResult] at chosen
  have same := Option.some.inj chosen
  by_cases inside : trueTarget ∈ loopBlocks
  · have outside : falseTarget ∉ loopBlocks := fun also =>
      oneInside (iff_of_true inside also)
    cases result
    · simp [truth, inside, outside, ← same]
    · simp [truth, inside, ← same]
  · have other : falseTarget ∈ loopBlocks := by
      by_contra outside
      exact oneInside (iff_of_false inside outside)
    cases result
    · simp [truth, inside, other, ← same]
    · simp [truth, inside, ← same]

theorem stays_iff (ssa : SsaForm function) {info : LoopInductionInfo} {test : IrBlockId}
    {op : CompareOp} {mt : Mt} (found : Found function header loopBlocks info test op)
    (regular : Regular function header loopBlocks info test mt) {state next : State E} {value : Int}
    (runs : Runs module host function frame world state) (atTest : state.block = test)
    (isValue : state.frame.regs info.ivPhi = numeral mt value)
    (leaves : next.pc = 0) (stepped : Stepped module host function state next) :
    (next.block ∈ loopBlocks ↔
      keepsGoing (wrapped mt.bits value) op (wrapped mt.bits info.boundConst) = true) ∧
      Fits mt.bits info.boundConst := by
  obtain ⟨-, block, foundTest, isTest⟩ := test_inside regular.headerInside found.bound
  obtain ⟨condition, left, right, compareOp, trueTarget, falseTarget, tests⟩ :=
    tests_of_blockTest isTest
  cases stepped with
  | executed => cases leaves
  | moved foundBlock done chosen =>
      rw [atTest, foundTest] at foundBlock
      cases foundBlock
      have atEnd : state.pc = block.instructions.length :=
        Nat.le_antisymm (pc_le_length runs (atTest ▸ foundTest)) done
      have available : Available function condition (pointOf state) := by
        rw [pointOf, atEnd, atTest]
        apply ssa.terminator foundTest
        rw [tests.branch]
        exact List.mem_singleton_self condition
      obtain ⟨result, isResult, goesOn, boundFits⟩ := condition_of_tests ssa
        (compares_of_count found.count) regular.oneType foundTest tests runs isValue available
      rw [tests.branch] at chosen
      refine ⟨?_, boundFits⟩
      rw [goesOn]
      exact chosen_inside tests.oneInside chosen isResult

theorem step_small {info : LoopInductionInfo} {test : IrBlockId} {op : CompareOp} {mt : Mt}
    (found : Found function header loopBlocks info test op)
    (oneType : OneType function header loopBlocks info test mt) :
    |info.stepAmount| ≤ 2 ^ (mt.bits - 1) := by
  have small : ∀ {value : Int}, Fits mt.bits value → |value| ≤ 2 ^ (mt.bits - 1) :=
    fun fits => abs_le.mpr ⟨fits.1, fits.2.le⟩
  obtain ⟨inst, member, cases'⟩ := step_instruction found.step
  rcases cases' with ⟨constant, rfl, isConst⟩ | ⟨constant, rfl, isConst⟩ |
    ⟨constant, amount, rfl, isConst, negated⟩
  · obtain ⟨-, -, -, fits⟩ := word_of_const isConst (oneType.step member).2.2
    exact small fits
  · obtain ⟨-, -, -, fits⟩ := word_of_const isConst (oneType.step member).2.1
    exact small fits
  · obtain ⟨-, -, -, fits⟩ := word_of_const isConst (oneType.step member).2.2
    rw [negated, abs_neg]
    exact small fits

/-- The value of the induction variable behind the last iteration fits its register. -/
def LastFits (info : LoopInductionInfo) (mt : Mt) : Prop :=
  Fits mt.bits (info.initConst + info.tripCount * info.stepAmount)

/-- Up to the counted iteration, the tested exit is taken at that iteration if the last value fits,
and not at all otherwise. -/
theorem exits_iff (ssa : SsaForm function) {info : LoopInductionInfo} {test : IrBlockId}
    {op : CompareOp} {mt : Mt} (found : Found function header loopBlocks info test op)
    (regular : Regular function header loopBlocks info test mt) {first : State E}
    (entered : Entered module host function frame world header loopBlocks first)
    {state next : State E} {done : Nat}
    (iterates : Iterates module host function header loopBlocks first state done)
    (few : done ≤ info.tripCount) (atTest : state.block = test) (leaves : next.pc = 0)
    (stepped : Stepped module host function state next) :
    next.block ∉ loopBlocks ↔ done = info.tripCount ∧ LastFits info mt := by
  have counted := counted ssa found regular entered iterates
  obtain ⟨stays, boundFits⟩ :=
    stays_iff ssa found regular counted.runs atTest counted.value leaves stepped
  have width := bits_of_counts regular.oneType.counts
  rw [stays, wrapped_of_fits width boundFits]
  rcases Nat.lt_or_eq_of_le few with before | last
  · obtain ⟨-, -, -, initFits⟩ := word_of_const found.init regular.oneType.init
    obtain ⟨goes, low, high⟩ := goes_before_count found.count before
    have fits : Fits mt.bits (info.initConst + done * info.stepAmount) :=
      ⟨(le_min initFits.1 boundFits.1).trans low, high.trans_lt (max_lt initFits.2 boundFits.2)⟩
    rw [wrapped_of_fits width fits]
    simp [goes, before.ne]
  · rw [last, keepsGoing_wrapped_iff width (passed_of_count found.count) boundFits
      (step_small found regular.oneType)]
    simp [LastFits]

/-- Where an iteration is: it has passed the test, is in the test, or has not come to it. -/
theorem position (ssa : SsaForm function) {info : LoopInductionInfo} {test : IrBlockId}
    {op : CompareOp} {mt : Mt} (found : Found function header loopBlocks info test op)
    (regular : Regular function header loopBlocks info test mt) (fits : LastFits info mt)
    {first : State E} (entered : Entered module host function frame world header loopBlocks first)
    {state : State E} {done : Nat}
    (iterates : Iterates module host function header loopBlocks first state done) :
    done ≤ info.tripCount ∧ (done < info.tripCount ∨ state.block = test ∨
      Untested function header loopBlocks test state.block) := by
  have atHeader : ∀ {block : IrBlockId}, block = header →
      block = test ∨ Untested function header loopBlocks test block := by
    intro block isHeader
    by_cases isTest : block = test
    · exact Or.inl isTest
    · rw [isHeader] at isTest ⊢
      exact Or.inr (.header isTest)
  -- A step within the loop that leaves the test has passed it.
  have passes : ∀ {state next : State E} {done : Nat},
      Iterates module host function header loopBlocks first state done →
      done ≤ info.tripCount → state.block = test → next.pc = 0 → next.block ∈ loopBlocks →
      Stepped module host function state next → done < info.tripCount := by
    intro state next done iterates few atTest leaves inside stepped
    apply lt_of_le_of_ne few
    intro last
    exact (exits_iff ssa found regular entered iterates few atTest leaves stepped).mpr
      ⟨last, fits⟩ inside
  induction iterates with
  | entered => exact ⟨Nat.zero_le _, Or.inr (atHeader entered.atHeader)⟩
  | @within state next done before stepped inside notBack ih =>
      obtain ⟨few, position⟩ := ih
      refine ⟨few, ?_⟩
      cases stepped with
      | executed => exact position
      | @moved source target regs foundSource ended chosen transferred =>
          have along : BlockEdge function state.block target :=
            ⟨source, foundSource, chosenTarget_mem chosen⟩
          have notHeader : target ≠ header := fun same => notBack (by simp [pointOf, same])
          rcases position with passed | atTest | untested
          · exact Or.inl passed
          · exact Or.inl (passes before few atTest rfl inside
              (.moved foundSource ended chosen transferred))
          · by_cases isTest : target = test
            · exact Or.inr (Or.inl isTest)
            · exact Or.inr (Or.inr (untested.next along inside notHeader isTest))
  | @back state next done before stepped isBack ih =>
      obtain ⟨few, position⟩ := ih
      have isHeader : next.block = header := congrArg Prod.fst isBack
      have less : done < info.tripCount := by
        rcases position with passed | atTest | untested
        · exact passed
        · exact passes before few atTest (congrArg Prod.snd isBack)
            (isHeader ▸ regular.headerInside) stepped
        · cases stepped with
          | executed => cases isBack
          | moved foundSource ended chosen transferred =>
              refine absurd ⟨_, foundSource, ?_⟩ (regular.tested untested)
              exact isHeader ▸ chosenTarget_mem chosen
      exact ⟨less, Or.inr (atHeader isHeader)⟩

/-- No iteration faults or goes on forever. -/
def IterationsEnd (module : IrModule) (host : Host E) (function : IrFunction) (header : IrBlockId)
    (loopBlocks : List IrBlockId) (first : State E) : Prop :=
  ∀ done, (∃ state, Iterates module host function header loopBlocks first state done) →
    ∃ state next, Iterates module host function header loopBlocks first state done ∧
      Stepped module host function state next ∧
      (pointOf next = (header, 0) ∨ next.block ∉ loopBlocks)

/-- The loop is left by the tested exit, after exactly the counted iterations. -/
structure ExactlyCounted (module : IrModule) (host : Host E) (function : IrFunction)
    (header : IrBlockId) (loopBlocks : List IrBlockId) (info : LoopInductionInfo)
    (test : IrBlockId) (first : State E) : Prop where
  atMost : ∀ {state done}, Iterates module host function header loopBlocks first state done →
    done ≤ info.tripCount
  exits : ∀ {state next done}, Iterates module host function header loopBlocks first state done →
    state.block = test → next.pc = 0 → Stepped module host function state next →
    (next.block ∉ loopBlocks ↔ done = info.tripCount)
  leaves : ∀ {state next done}, Iterates module host function header loopBlocks first state done →
    Stepped module host function state next → next.block ∉ loopBlocks →
    state.block = test ∧ done = info.tripCount
  stays : ∀ {state done}, Iterates module host function header loopBlocks first state done →
    ∀ bits world, step module host function state ≠ .inr (.returned bits world)
  reached : IterationsEnd module host function header loopBlocks first →
    ∃ state next, Iterates module host function header loopBlocks first state info.tripCount ∧
      state.block = test ∧ Stepped module host function state next ∧ next.block ∉ loopBlocks

/-- Only a return ends a run with a result. -/
theorem returns_of_returned {state : State E} {bits : BitVec 64} {world' : World E}
    (returned : step module host function state = .inr (.returned bits world')) :
    ∃ block value, function.getBlock state.block = some block ∧ block.terminator = .ret value := by
  unfold step at returned
  cases found : function.getBlock state.block with
  | none => simp [found] at returned
  | some block =>
      simp only [found] at returned
      cases here : block.instructions[state.pc]? with
      | some inst =>
          simp only [here] at returned
          cases ran : execute module host function inst state.frame state.world with
          | ok result => simp [ran] at returned
          | error fault => simp [ran] at returned
      | none =>
          simp only [here] at returned
          cases chosen : chosenTarget state.frame.regs block.terminator with
          | some target =>
              rw [terminate_of_chosen chosen] at returned
              cases arrived : transfer function state.block block.terminator target
                state.frame.regs with
              | error fault => simp [arrive, arrived] at returned
              | ok regs => simp [arrive, arrived] at returned
          | none =>
              refine ⟨block, ?_⟩
              cases terminator : block.terminator with
              | ret value => exact ⟨value, rfl, rfl⟩
              | branch target => simp [terminator, chosenTarget] at chosen
              | condBranch condition trueTarget falseTarget =>
                  simp [terminator, chosenTarget] at chosen
              | switch value table default => simp [terminator, chosenTarget] at chosen
              | unreachable => simp [terminator, terminate] at returned
              | noReturn call => simp [terminator, terminate] at returned

theorem exactlyCounted (ssa : SsaForm function) {info : LoopInductionInfo} {test : IrBlockId}
    {op : CompareOp} {mt : Mt} (found : Found function header loopBlocks info test op)
    (regular : Regular function header loopBlocks info test mt) (fits : LastFits info mt)
    {first : State E} (entered : Entered module host function frame world header loopBlocks first) :
    ExactlyCounted module host function header loopBlocks info test first := by
  have few : ∀ {state : State E} {done : Nat},
      Iterates module host function header loopBlocks first state done →
      done ≤ info.tripCount :=
    fun iterates => (position ssa found regular fits entered iterates).1
  have leaves : ∀ {state next : State E} {done : Nat},
      Iterates module host function header loopBlocks first state done →
      Stepped module host function state next → next.block ∉ loopBlocks →
      state.block = test ∧ done = info.tripCount := by
    intro state next done iterates stepped outside
    have inside := (counted ssa found regular entered iterates).inside
    have atTest : state.block = test ∧ next.pc = 0 := by
      cases stepped with
      | executed => exact absurd inside outside
      | moved foundSource _ chosen _ =>
          exact ⟨regular.oneExit inside foundSource (chosenTarget_mem chosen) outside, rfl⟩
    exact ⟨atTest.1, ((exits_iff ssa found regular entered iterates (few iterates) atTest.1 atTest.2
      stepped).mp outside).1⟩
  refine ⟨few, ?_, leaves, ?_, ?_⟩
  · intro state next done iterates atTest leavesBlock stepped
    rw [exits_iff ssa found regular entered iterates (few iterates) atTest leavesBlock stepped]
    exact and_iff_left fits
  · intro state done iterates bits world' returned
    obtain ⟨block, value, foundBlock, isReturn⟩ := returns_of_returned returned
    exact regular.noReturn (counted ssa found regular entered iterates).inside foundBlock isReturn
  · intro iterationsEnd
    have everyCount : ∀ done ≤ info.tripCount,
        ∃ state, Iterates module host function header loopBlocks first state done := by
      intro done
      induction done with
      | zero => exact fun _ => ⟨first, .entered⟩
      | succ done ih =>
          intro less
          obtain ⟨state, next, iterates, stepped, back | outside⟩ :=
            iterationsEnd done (ih (Nat.le_of_succ_le less))
          · exact ⟨next, iterates.back stepped back⟩
          · exact absurd (leaves iterates stepped outside).2 (Nat.ne_of_lt less)
    obtain ⟨state, next, iterates, stepped, back | outside⟩ :=
      iterationsEnd _ (everyCount _ (Nat.le_refl _))
    · exact absurd (few (iterates.back stepped back)) (Nat.not_succ_le_self _)
    · exact ⟨state, next, iterates, (leaves iterates stepped outside).1, stepped, outside⟩

end Runs

/-! ### Counting up to a bound, and up to the greatest integer -/

section Examples

variable {E : Type} {module : IrModule} {host : Host E} {function : IrFunction}
  {header : IrBlockId} {loopBlocks : List IrBlockId}

def iterate (module : IrModule) (host : Host E) (function : IrFunction) (header : IrBlockId)
    (loopBlocks : List IrBlockId) : Nat → State E → Nat → Option (State E × Nat)
  | 0, state, done => some (state, done)
  | steps + 1, state, done =>
      match step module host function state with
      | .inr _ => none
      | .inl next =>
          if pointOf next = (header, 0) then
            iterate module host function header loopBlocks steps next (done + 1)
          else if next.block ∈ loopBlocks then
            iterate module host function header loopBlocks steps next done
          else none

theorem iterates_of_iterate (steps : Nat) {first state last : State E} {done count : Nat}
    (before : Iterates module host function header loopBlocks first state done)
    (goes : iterate module host function header loopBlocks steps state done = some (last, count)) :
    Iterates module host function header loopBlocks first last count := by
  induction steps generalizing state done with
  | zero =>
      cases goes
      exact before
  | succ steps ih =>
      unfold iterate at goes
      cases stepped : step module host function state with
      | inr outcome => simp [stepped] at goes
      | inl next =>
          simp only [stepped] at goes
          by_cases back : pointOf next = (header, 0)
          · rw [if_pos back] at goes
            exact ih (before.back (step_eq_inl.mp stepped) back) goes
          · rw [if_neg back] at goes
            by_cases inside : next.block ∈ loopBlocks
            · rw [if_pos inside] at goes
              exact ih (before.within (step_eq_inl.mp stepped) inside back) goes
            · rw [if_neg inside] at goes
              cases goes

def counting (init bound : BitVec 32) : IrFunction where
  name := "counting"
  signature :=
    { parameters := [], returnType := .void, callingConvention := .haxe, typeParams := [],
      usesSret := false }
  cfg :=
    { blocks := OrdMap.ofList [
        (0, { instructions := [.const 1 (.i32 init), .const 2 (.i32 bound), .const 3 (.i32 1)],
              terminator := .branch 1 }),
        (1, { phiNodes := [{ dest := 4, incoming := [(0, 1), (1, 5)], ty := .i32 }],
              instructions := [.cmp 6 .le 4 2, .binOp 5 .add 4 3],
              terminator := .condBranch 6 1 2, predecessors := [0, 1] }),
        (2, { terminator := .ret none, predecessors := [1] })],
      entryBlock := 0, nextBlockId := 3 }
  locals := .empty
  registerTypes := OrdMap.ofList [(1, .i32), (2, .i32), (3, .i32), (4, .i32), (5, .i32), (6, .bool)]
  externalLinkage := false
  nextRegId := 7
  typeParamTagFixups := []
  typeParamMetadataFixups := []

theorem counting_ssaForm (init bound : BitVec 32) : SsaForm (counting init bound) := by
  have checked : Checked (counting init bound) fun id => if id = 1 then [1, 2, 3, 4] else [] :=
    of_decide_eq_true rfl
  exact checked.ssaForm

def countingBlock : IrBasicBlock where
  phiNodes := [{ dest := 4, incoming := [(0, 1), (1, 5)], ty := .i32 }]
  instructions := [.cmp 6 .le 4 2, .binOp 5 .add 4 3]
  terminator := .condBranch 6 1 2
  predecessors := [0, 1]

theorem counting_header (init bound : BitVec 32) {block : IrBasicBlock}
    (found : (counting init bound).getBlock 1 = some block) : block = countingBlock :=
  (Option.some.inj found).symm

theorem counting_constants (init bound : BitVec 32) (reg : IrId) :
    ConstantAt (counting init bound) .i32 reg := by
  intro constant word found isWord
  obtain ⟨inst, member, isHere⟩ := List.exists_of_findSome?_eq_some found
  have instructions : ((counting init bound).cfg.blocks.values.flatMap (·.instructions)) =
      [.const 1 (.i32 init), .const 2 (.i32 bound), .const 3 (.i32 1), .cmp 6 .le 4 2,
        .binOp 5 .add 4 3] := rfl
  rw [instructions] at member
  simp only [List.mem_cons, List.not_mem_nil, or_false] at member
  rcases member with rfl | rfl | rfl | rfl | rfl
  · cases (Option.ite_none_right_eq_some.mp isHere).2
    cases isWord
    rfl
  · cases (Option.ite_none_right_eq_some.mp isHere).2
    cases isWord
    rfl
  · cases (Option.ite_none_right_eq_some.mp isHere).2
    cases isWord
    rfl
  · cases isHere
  · cases isHere

theorem counting_oneType (init bound : BitVec 32) (initConst boundConst : Int) (tripCount : Nat) :
    OneType (counting init bound) 1 [1]
      { ivPhi := 4, initVal := 1, initConst, stepVal := 5, stepAmount := 1, boundConst, tripCount }
      1 .i32 where
  counts := Or.inl rfl
  phi := by
    intro block phi found member _
    cases counting_header init bound found
    cases List.mem_singleton.mp member
    rfl
  init := counting_constants init bound _
  step := by
    intro op left right member
    have instructions : loopInstructions (counting init bound) [1] =
        [.cmp 6 .le 4 2, .binOp 5 .add 4 3] := rfl
    rw [instructions] at member
    simp only [List.mem_cons, List.not_mem_nil, or_false, reduceCtorEq, false_or] at member
    cases member
    exact ⟨⟨.i32, rfl, rfl⟩, counting_constants init bound _, counting_constants init bound _⟩
  test := by
    intro block dest op left right found member _
    cases counting_header init bound found
    simp only [countingBlock, List.mem_cons, List.not_mem_nil, or_false, reduceCtorEq] at member
    cases member
    exact ⟨rfl, counting_constants init bound _, counting_constants init bound _⟩

/-- The loop of a function that counts is controlled by its one induction variable. -/
theorem counting_regular (init bound : BitVec 32) (initConst boundConst : Int) (tripCount : Nat) :
    Regular (counting init bound) 1 [1]
      { ivPhi := 4, initVal := 1, initConst, stepVal := 5, stepAmount := 1, boundConst, tripCount }
      1 .i32 where
  headerInside := List.mem_singleton_self 1
  oneType := counting_oneType init bound initConst boundConst tripCount
  oneValue := by
    intro block phi entry found member _ incoming
    cases counting_header init bound found
    cases List.mem_singleton.mp member
    simp only [List.mem_cons, List.not_mem_nil, or_false] at incoming
    rcases incoming with rfl | rfl <;> rfl
  tested := by
    intro id untested
    induction untested with
    | header notTest => exact absurd rfl notTest
    | next _ _ inside notHeader => exact absurd (List.mem_singleton.mp inside) notHeader
  oneExit := fun inside _ _ _ => List.mem_singleton.mp inside
  noReturn := by
    intro id block value inside found isReturn
    cases List.mem_singleton.mp inside
    cases counting_header init bound found
    cases isReturn

end Examples

end Rayzor.Passes.CountedLoops
