import Rayzor.Library.Checked
import Rayzor.Ir.Blocks

/-!
Contract: constant trip counts, as the loop unroller computes them, against the first index at
which a stepped value fails its test.

Owns: the search for the step, the bound and the test of an induction variable, the count, when its
arithmetic overflows, and when the value behind the last iteration fits the register.
-/

namespace Rayzor.Passes.TripCounts

open Ir Library

/-! ### `analyze_loop_trip_count` -/

inductive CountPanic where
  | overflow
  deriving DecidableEq

/-- The result of an operation on `i64`. -/
def i64 (value : Int) : Except CountPanic Int :=
  match checked 64 value with
  | some value => .ok value
  | none => .error .overflow

structure LoopInductionInfo where
  ivPhi : IrId
  initVal : IrId
  initConst : Int
  stepVal : IrId
  stepAmount : Int
  boundConst : Int
  tripCount : Nat

def constOf (reg : IrId) : IrInstruction → Option IrValue
  | .const dest value => if dest = reg then some value else none
  | _ => none

def findConst (function : IrFunction) (reg : IrId) : Option IrValue :=
  (function.cfg.blocks.values.flatMap (·.instructions)).findSome? (constOf reg)

def intValue : IrValue → Option Int
  | .i32 value => some value.toInt
  | .i64 value => some value.toInt
  | _ => none

def findConstValue (function : IrFunction) (reg : IrId) : Option Int :=
  (findConst function reg).bind intValue

def loopInstructions (function : IrFunction) (loopBlocks : List IrBlockId) : List IrInstruction :=
  (loopBlocks.filterMap function.getBlock).flatMap (·.instructions)

/-- The step of an increment of `iv`. A subtracted constant is negated. -/
def stepOf (function : IrFunction) (stepReg iv : IrId) :
    IrInstruction → Option (Except CountPanic Int)
  | .binOp dest op left right =>
      if dest = stepReg then
        match op with
        | .add =>
            ((if left = iv then findConstValue function right else none) <|>
              (if right = iv then findConstValue function left else none)).map .ok
        | .sub =>
            (if left = iv then findConstValue function right else none).map fun c => i64 (-c)
        | _ => none
      else none
  | _ => none

def findStepInstruction (function : IrFunction) (stepReg iv : IrId)
    (loopBlocks : List IrBlockId) : Option (Except CountPanic Int) :=
  (loopInstructions function loopBlocks).findSome? (stepOf function stepReg iv)

def negateCmp : CompareOp → CompareOp
  | .lt => .ge
  | .le => .gt
  | .gt => .le
  | .ge => .lt
  | .eq => .ne
  | .ne => .eq
  | other => other

def swapCmp : CompareOp → CompareOp
  | .lt => .gt
  | .le => .ge
  | .gt => .lt
  | .ge => .le
  | other => other

/-- The bound of a comparison of `iv` that gives the condition, and the comparison under which the
loop goes on. -/
def boundOf (function : IrFunction) (iv condition : IrId) (trueIn : Bool) :
    IrInstruction → Option (Int × CompareOp)
  | .cmp dest op left right =>
      if dest = condition then
        (if left = iv then
          (findConstValue function right).map fun bound =>
            (bound, if trueIn then op else negateCmp op)
        else none) <|>
        (if right = iv then
          (findConstValue function left).map fun bound =>
            (bound, if trueIn then swapCmp op else negateCmp (swapCmp op))
        else none)
      else none
  | _ => none

/-- The condition of a branch with one target inside, and whether that is the first. -/
def exitBranch (loopBlocks : List IrBlockId) : IrTerminator → Option (IrId × Bool)
  | .condBranch condition trueTarget falseTarget =>
      if decide (trueTarget ∈ loopBlocks) = decide (falseTarget ∈ loopBlocks) then none
      else some (condition, decide (trueTarget ∈ loopBlocks))
  | _ => none

def blockTest (function : IrFunction) (iv : IrId) (loopBlocks : List IrBlockId)
    (block : IrBasicBlock) : Option (Int × CompareOp) :=
  (exitBranch loopBlocks block.terminator).bind fun branch =>
    block.instructions.findSome? (boundOf function iv branch.1 branch.2)

/-- The first block with a test of `iv`, and the test. A block the function lacks ends the search. -/
def findLoopTest (function : IrFunction) (iv : IrId) (loopBlocks : List IrBlockId) :
    List IrBlockId → Option (IrBlockId × Int × CompareOp)
  | [] => none
  | id :: rest =>
      match function.getBlock id with
      | none => none
      | some block =>
          match blockTest function iv loopBlocks block with
          | some test => some (id, test)
          | none => findLoopTest function iv loopBlocks rest

/-- The header is looked at first. -/
def blocksToCheck (loopBlocks : List IrBlockId) (header : IrBlockId) : List IrBlockId :=
  header :: loopBlocks.filter (· ≠ header)

def findLoopBound (function : IrFunction) (iv : IrId) (loopBlocks : List IrBlockId)
    (header : IrBlockId) : Option (Int × CompareOp) :=
  (findLoopTest function iv loopBlocks (blocksToCheck loopBlocks header)).map Prod.snd

def counted (range : Except CountPanic Int) : Except CountPanic (Option Nat) := do
  let range ← range
  .ok (if 0 ≤ range then some range.toNat else none)

def computeTripCount (init bound step : Int) (op : CompareOp) : Except CountPanic (Option Nat) :=
  if step = 0 then .ok none
  else match op with
    | .lt =>
        if 0 < step ∧ init < bound then
          counted do .ok ((← i64 ((← i64 ((← i64 (bound - init)) + step)) - 1)).tdiv step)
        else .ok none
    | .le =>
        if 0 < step ∧ init ≤ bound then
          counted do .ok ((← i64 ((← i64 (bound - init)) + step)).tdiv step)
        else .ok none
    | .gt =>
        if step < 0 ∧ bound < init then
          counted do
            let range ← i64 (init - bound)
            let back ← i64 (-step)
            .ok ((← i64 ((← i64 (range + back)) - 1)).tdiv back)
        else .ok none
    | .ge =>
        if step < 0 ∧ bound ≤ init then
          counted do
            let range ← i64 (init - bound)
            let back ← i64 (-step)
            .ok ((← i64 (range + back)).tdiv back)
        else .ok none
    | .ne =>
        if 0 < step ∧ init < bound then do
          let range ← i64 (bound - init)
          if range.tmod step = 0 then counted (.ok (range.tdiv step)) else .ok none
        else if step < 0 ∧ bound < init then do
          let range ← i64 (init - bound)
          let back ← i64 (-step)
          if range.tmod back = 0 then counted (.ok (range.tdiv back)) else .ok none
        else .ok none
    | _ => .ok none

/-- The last value from within the loop, and the last from outside. -/
def incomingValues (loopBlocks : List IrBlockId) (phi : IrPhiNode) : Option IrId × Option IrId :=
  phi.incoming.foldl (fun found entry =>
    if entry.1 ∈ loopBlocks then (some entry.2, found.2) else (found.1, some entry.2)) (none, none)

def inductionPhi (loopBlocks : List IrBlockId) (phi : IrPhiNode) :
    Option (IrPhiNode × IrId × IrId) :=
  match incomingValues loopBlocks phi with
  | (some stepReg, some initReg) => some (phi, stepReg, initReg)
  | _ => none

/-- The first phi of the header with a value from either side decides. -/
def analyzeLoopTripCount (function : IrFunction) (header : IrBlockId)
    (loopBlocks : List IrBlockId) : Except CountPanic (Option LoopInductionInfo) :=
  match (function.getBlock header).bind fun block =>
      block.phiNodes.findSome? (inductionPhi loopBlocks) with
  | none => .ok none
  | some (phi, stepVal, initVal) =>
      match findConstValue function initVal with
      | none => .ok none
      | some initConst =>
          match findStepInstruction function stepVal phi.dest loopBlocks with
          | none => .ok none
          | some step => do
              let stepAmount ← step
              match findLoopBound function phi.dest loopBlocks header with
              | none => .ok none
              | some (boundConst, op) =>
                  let count ← computeTripCount initConst boundConst stepAmount op
                  .ok (count.map fun tripCount =>
                    { ivPhi := phi.dest, initVal, initConst, stepVal, stepAmount, boundConst,
                      tripCount })

/-! ### The count -/

/-- The loop goes on with this value. -/
def keepsGoing (value : Int) (op : CompareOp) (bound : Int) : Bool :=
  match op with
  | .lt => value < bound
  | .le => value ≤ bound
  | .gt => bound < value
  | .ge => bound ≤ value
  | .eq => value = bound
  | .ne => value ≠ bound
  | _ => false

/-! ### When the arithmetic of the count overflows -/

theorem i64_of_fits {value : Int} (above : -2 ^ 63 ≤ value) (below : value < 2 ^ 63) :
    i64 value = .ok value := by
  unfold i64 checked
  rw [if_pos ⟨above, below⟩]

theorem i64_of_large {value : Int} (large : 2 ^ 63 ≤ value) : i64 value = .error .overflow := by
  unfold i64 checked
  rw [if_neg fun fits => absurd fits.2 (not_lt.mpr large)]

theorem counted_of_nonneg {range : Int} (nonneg : 0 ≤ range) :
    counted (.ok range) = .ok (some range.toNat) := by
  simp [counted, nonneg, bind, Except.bind]

/-- The differences and sums that the count is computed from stay below 2^63. -/
def CountFits (init bound step : Int) : CompareOp → Prop
  | .lt => 0 < step → init < bound → bound - init + step < 2 ^ 63
  | .le => 0 < step → init ≤ bound → bound - init + step < 2 ^ 63
  | .gt => step < 0 → bound < init → init - bound - step < 2 ^ 63
  | .ge => step < 0 → bound ≤ init → init - bound - step < 2 ^ 63
  | .ne => (0 < step → init < bound → bound - init < 2 ^ 63) ∧
      (step < 0 → bound < init → init - bound < 2 ^ 63 ∧ -step < 2 ^ 63)
  | _ => True

def countOf (init bound step : Int) : CompareOp → Int
  | .lt => (bound - init + step - 1) / step
  | .le => (bound - init + step) / step
  | .gt => (init - bound - step - 1) / -step
  | .ge => (init - bound - step) / -step
  | _ => if 0 < step then (bound - init) / step else (init - bound) / -step

/-- The loops that have a count: the step leads from the initial value to the bound. -/
def Approaches (init bound step : Int) : CompareOp → Prop
  | .lt => 0 < step ∧ init < bound
  | .le => 0 < step ∧ init ≤ bound
  | .gt => step < 0 ∧ bound < init
  | .ge => step < 0 ∧ bound ≤ init
  | .ne => 0 < step ∧ init < bound ∧ (bound - init) % step = 0 ∨
      step < 0 ∧ bound < init ∧ (init - bound) % -step = 0
  | _ => False

section Counts

variable {init bound step : Int} {op : CompareOp}

theorem computeTripCount_of_fits (fits : CountFits init bound step op)
    (approaches : Approaches init bound step op) :
    computeTripCount init bound step op = .ok (some (countOf init bound step op).toNat) := by
  have quotient : ∀ {range size : Int}, 0 ≤ range → 0 < size →
      counted (.ok (range.tdiv size)) = .ok (some (range / size).toNat) := by
    intro range size nonneg positive
    rw [Int.tdiv_eq_ediv_of_nonneg nonneg]
    exact counted_of_nonneg (Int.ediv_nonneg nonneg positive.le)
  unfold computeTripCount countOf
  cases op
  case lt =>
    obtain ⟨up, before⟩ := approaches
    have small := fits up before
    simp (disch := omega) only [up.ne', up, before, and_self, if_true, if_false, i64_of_fits, bind,
      Except.bind, quotient]
  case le =>
    obtain ⟨up, before⟩ := approaches
    have small := fits up before
    simp (disch := omega) only [up.ne', up, before, and_self, if_true, if_false, i64_of_fits, bind,
      Except.bind, quotient]
  case gt =>
    obtain ⟨down, behind⟩ := approaches
    have small := fits down behind
    simp (disch := omega) only [down.ne, down, behind, and_self, if_true, if_false, i64_of_fits,
      bind, Except.bind, quotient, ← Int.sub_eq_add_neg]
  case ge =>
    obtain ⟨down, behind⟩ := approaches
    have small := fits down behind
    simp (disch := omega) only [down.ne, down, behind, and_self, if_true, if_false, i64_of_fits,
      bind, Except.bind, quotient, ← Int.sub_eq_add_neg]
  case ne =>
    rcases approaches with ⟨up, before, whole⟩ | ⟨down, behind, whole⟩
    · have small := fits.1 up before
      simp (disch := omega) only [up.ne', up, before, and_self, if_true, if_false, i64_of_fits,
        bind, Except.bind, Int.tmod_eq_emod_of_nonneg, whole, quotient]
    · have small := fits.2 down behind
      have notUp : ¬0 < step := not_lt.mpr down.le
      simp (disch := omega) only [down.ne, notUp, down, behind, false_and, and_self, if_true,
        if_false, i64_of_fits, bind, Except.bind, Int.tmod_eq_emod_of_nonneg, whole, quotient]
  all_goals cases approaches

theorem computeTripCount_of_not_fits (overflows : ¬CountFits init bound step op) :
    computeTripCount init bound step op = .error .overflow := by
  cases op
  all_goals unfold computeTripCount
  all_goals dsimp only
  case lt | le =>
    simp only [CountFits, not_forall, not_lt] at overflows
    obtain ⟨up, before, large⟩ := overflows
    rw [if_neg up.ne', if_pos ⟨up, before⟩]
    by_cases first : 2 ^ 63 ≤ bound - init
    · simp only [i64_of_large first, counted, bind, Except.bind]
    · simp (disch := omega) only [i64_of_fits, i64_of_large, counted, bind, Except.bind]
  case gt | ge =>
    simp only [CountFits, not_forall, not_lt] at overflows
    obtain ⟨down, behind, large⟩ := overflows
    rw [if_neg down.ne, if_pos ⟨down, behind⟩]
    by_cases first : 2 ^ 63 ≤ init - bound
    · simp only [i64_of_large first, counted, bind, Except.bind]
    · by_cases second : 2 ^ 63 ≤ -step
      · simp (disch := omega) only [i64_of_fits, i64_of_large second, counted, bind, Except.bind]
      · simp (disch := omega) only [i64_of_fits, i64_of_large, counted, bind, Except.bind]
  case ne =>
    by_cases up : 0 < step ∧ init < bound
    · have large : 2 ^ 63 ≤ bound - init := by
        by_contra small
        apply overflows
        exact ⟨fun _ _ => not_le.mp small, fun down => absurd down (not_lt.mpr up.1.le)⟩
      rw [if_neg up.1.ne', if_pos up]
      simp only [i64_of_large large, bind, Except.bind]
    · by_cases down : step < 0 ∧ bound < init
      · rw [if_neg down.1.ne, if_neg up, if_pos down]
        by_cases first : 2 ^ 63 ≤ init - bound
        · simp only [i64_of_large first, bind, Except.bind]
        · have second : 2 ^ 63 ≤ -step := by
            by_contra small
            apply overflows
            exact ⟨fun isUp => absurd isUp (not_lt.mpr down.1.le),
              fun _ _ => ⟨not_le.mp first, not_le.mp small⟩⟩
          simp (disch := omega) only [i64_of_fits, i64_of_large second, bind, Except.bind]
      · exact absurd ⟨fun isUp before => absurd ⟨isUp, before⟩ up,
          fun isDown behind => absurd ⟨isDown, behind⟩ down⟩ overflows
  all_goals exact absurd trivial overflows

theorem computeTripCount_of_not_approaches (fits : CountFits init bound step op)
    (away : ¬Approaches init bound step op) : computeTripCount init bound step op = .ok none := by
  unfold computeTripCount
  by_cases still : step = 0
  · rw [if_pos still]
  · rw [if_neg still]
    cases op
    all_goals dsimp only
    case lt | le | gt | ge => exact if_neg away
    case ne =>
      simp only [Approaches, not_or, not_and] at away
      by_cases up : 0 < step ∧ init < bound
      · have small := fits.1 up.1 up.2
        rw [if_pos up]
        simp (disch := omega) only [i64_of_fits, bind, Except.bind, Int.tmod_eq_emod_of_nonneg]
        rw [if_neg (away.1 up.1 up.2)]
      · by_cases down : step < 0 ∧ bound < init
        · have small := fits.2 down.1 down.2
          rw [if_neg up, if_pos down]
          simp (disch := omega) only [i64_of_fits, bind, Except.bind, Int.tmod_eq_emod_of_nonneg]
          rw [if_neg (away.2 down.1 down.2)]
        · rw [if_neg up, if_neg down]

/-- The count overflows exactly where one of its sums is too large. -/
theorem computeTripCount_overflows_iff :
    computeTripCount init bound step op = .error .overflow ↔ ¬CountFits init bound step op := by
  refine ⟨fun panics fits => ?_, computeTripCount_of_not_fits⟩
  by_cases approaches : Approaches init bound step op
  · rw [computeTripCount_of_fits fits approaches] at panics
    cases panics
  · rw [computeTripCount_of_not_approaches fits approaches] at panics
    cases panics

/-- A count is given exactly to the loops that approach their bound. -/
theorem approaches_of_count {n : Nat}
    (counts : computeTripCount init bound step op = .ok (some n)) :
    Approaches init bound step op ∧ n = (countOf init bound step op).toNat := by
  by_cases fits : CountFits init bound step op
  · by_cases approaches : Approaches init bound step op
    · rw [computeTripCount_of_fits fits approaches] at counts
      cases counts
      exact ⟨approaches, rfl⟩
    · rw [computeTripCount_of_not_approaches fits approaches] at counts
      cases counts
  · rw [computeTripCount_of_not_fits fits] at counts
    cases counts

/-! ### The first value that fails the test -/

/-- The value behind the last iteration has passed the bound by less than a step. -/
def Passed (bound step last : Int) : CompareOp → Prop
  | .lt => 0 < step ∧ bound ≤ last ∧ last < bound + step
  | .le => 0 < step ∧ bound < last ∧ last ≤ bound + step
  | .gt => step < 0 ∧ last ≤ bound ∧ bound + step < last
  | .ge => step < 0 ∧ last < bound ∧ bound + step ≤ last
  | .ne => step ≠ 0 ∧ last = bound
  | _ => False

theorem passed_of_count {n : Nat} (counts : computeTripCount init bound step op = .ok (some n)) :
    Passed bound step (init + n * step) op := by
  obtain ⟨approaches, rfl⟩ := approaches_of_count counts
  have upwards : ∀ {range : Int}, 0 ≤ range → 0 < step →
      ((range / step).toNat : Int) * step ≤ range ∧
        range < ((range / step).toNat : Int) * step + step := by
    intro range nonneg up
    rw [Int.toNat_of_nonneg (Int.ediv_nonneg nonneg up.le)]
    have low := Int.ediv_mul_le range up.ne'
    have high := Int.lt_ediv_add_one_mul_self range up
    constructor <;> linarith
  have downwards : ∀ {range : Int}, 0 ≤ range → step < 0 →
      ((range / -step).toNat : Int) * -step ≤ range ∧
        range < ((range / -step).toNat : Int) * -step + -step := by
    intro range nonneg down
    have back : 0 < -step := by linarith
    rw [Int.toNat_of_nonneg (Int.ediv_nonneg nonneg back.le)]
    have low := Int.ediv_mul_le range back.ne'
    have high := Int.lt_ediv_add_one_mul_self range back
    constructor <;> linarith
  unfold countOf
  cases op
  case lt =>
    obtain ⟨up, before⟩ := approaches
    have near := upwards (by linarith : 0 ≤ bound - init + step - 1) up
    refine ⟨up, ?_, ?_⟩ <;> dsimp only <;> linarith
  case le =>
    obtain ⟨up, before⟩ := approaches
    have near := upwards (by linarith : 0 ≤ bound - init + step) up
    refine ⟨up, ?_, ?_⟩ <;> dsimp only <;> linarith
  case gt =>
    obtain ⟨down, behind⟩ := approaches
    have near := downwards (by linarith : 0 ≤ init - bound - step - 1) down
    refine ⟨down, ?_, ?_⟩ <;> dsimp only <;> linarith
  case ge =>
    obtain ⟨down, behind⟩ := approaches
    have near := downwards (by linarith : 0 ≤ init - bound - step) down
    refine ⟨down, ?_, ?_⟩ <;> dsimp only <;> linarith
  case ne =>
    rcases approaches with ⟨up, before, whole⟩ | ⟨down, behind, whole⟩
    · have exact' := Int.ediv_mul_cancel (Int.dvd_of_emod_eq_zero whole)
      refine ⟨up.ne', ?_⟩
      rw [if_pos up, Int.toNat_of_nonneg (Int.ediv_nonneg (by linarith) up.le)]
      linarith
    · have exact' := Int.ediv_mul_cancel (Int.dvd_of_emod_eq_zero whole)
      refine ⟨down.ne, ?_⟩
      rw [if_neg (not_lt.mpr down.le),
        Int.toNat_of_nonneg (Int.ediv_nonneg (by linarith) (by linarith))]
      linarith
  all_goals exact approaches

/-- Up to the last iteration the values lie between the initial one and the bound, and pass the
test. -/
theorem goes_before_count {n k : Nat} (counts : computeTripCount init bound step op = .ok (some n))
    (before : k < n) : keepsGoing (init + k * step) op bound = true ∧
      min init bound ≤ init + k * step ∧ init + k * step ≤ max init bound := by
  have passed := passed_of_count counts
  obtain ⟨approaches, -⟩ := approaches_of_count counts
  have early : (k : Int) + 1 ≤ n := by exact_mod_cast before
  have upwards : 0 < step → (k : Int) * step + step ≤ n * step ∧ 0 ≤ (k : Int) * step := by
    intro up
    constructor <;> nlinarith [Int.natCast_nonneg k]
  have downwards : step < 0 → (n : Int) * step ≤ k * step + step ∧ (k : Int) * step ≤ 0 := by
    intro down
    constructor <;> nlinarith [Int.natCast_nonneg k]
  cases op
  case lt | le =>
    have near := upwards passed.1
    have last := passed.2
    simp only [keepsGoing, decide_eq_true_eq]
    omega
  case gt | ge =>
    have near := downwards passed.1
    have last := passed.2
    simp only [keepsGoing, decide_eq_true_eq]
    omega
  case ne =>
    have last := passed.2
    simp only [keepsGoing, decide_eq_true_eq]
    rcases approaches with ⟨up, -, -⟩ | ⟨down, -, -⟩
    · have near := upwards up
      omega
    · have near := downwards down
      omega
  all_goals cases passed

theorem stops_at_count {last : Int} (passed : Passed bound step last op) :
    keepsGoing last op bound = false := by
  cases op
  case ne => simp [keepsGoing, passed.2]
  case lt | le | gt | ge =>
    have last := passed.2
    simp only [keepsGoing, decide_eq_false_iff_not]
    omega
  all_goals cases passed

/-! ### Registers -/

/-- The integers of a register with so many bits. -/
def Fits (bits : Nat) (value : Int) : Prop := -2 ^ (bits - 1) ≤ value ∧ value < 2 ^ (bits - 1)

/-- What a register with so many bits makes of an integer. -/
def wrapped (bits : Nat) (value : Int) : Int := value.bmod (2 ^ bits)

theorem wrapped_of_fits {bits : Nat} (width : bits = 32 ∨ bits = 64) {value : Int}
    (fits : Fits bits value) : wrapped bits value = value := by
  rcases width with rfl | rfl
  all_goals
    simp only [Fits] at fits
    simp only [wrapped, Int.bmod_def]
    omega

/-- A value behind the bound that does not fit comes round to a value that passes the test. -/
theorem keepsGoing_wrapped_iff {bits : Nat} (width : bits = 32 ∨ bits = 64) {last : Int}
    (passed : Passed bound step last op) (boundFits : Fits bits bound)
    (stepSmall : |step| ≤ 2 ^ (bits - 1)) :
    keepsGoing (wrapped bits last) op bound = true ↔ ¬Fits bits last := by
  by_cases fits : Fits bits last
  · rw [wrapped_of_fits width fits, stops_at_count passed]
    simp [fits]
  · simp only [fits, not_false_eq_true, iff_true]
    rw [abs_le] at stepSmall
    rcases width with rfl | rfl
    all_goals
      simp only [Fits] at fits boundFits
      unfold keepsGoing wrapped
      rw [Int.bmod_def]
      cases op
      case lt | le | gt | ge =>
        have near := passed.2
        simp only [decide_eq_true_eq]
        omega
      case ne =>
        have near := passed.2
        omega
      all_goals cases passed

end Counts

end Rayzor.Passes.TripCounts
