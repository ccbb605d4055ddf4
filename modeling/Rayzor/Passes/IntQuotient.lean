import Rayzor.Library.Rounding
import Rayzor.Ssa.Equations

/-!
Contract: turning `Std.int(a / c)` into integer division, for an Int `a` and an
Int constant `c`.
-/

namespace Rayzor.Passes.IntQuotient

open Ir Interp Library Ssa

/-! ### `IntQuotientPass` -/

def isStdInt (name : String) : Bool := name == "haxe_std_int"

def stdInt (module : IrModule) : List IrFunctionId :=
  (module.externFunctions.entries.filter fun entry => isStdInt entry.2.name).map Prod.fst ++
    (module.functions.entries.filter fun entry =>
      entry.2.isExtern && isStdInt entry.2.name).map Prod.fst

/-- The Int a Float operand was converted from, or the Int constant it is. -/
inductive IntSource where
  | value (reg : IrId)
  | constant (value : BitVec 32)

/-- The last definition of each register, in block order. -/
def defs (function : IrFunction) : OrdMap IrId IrInstruction :=
  .ofList ((function.cfg.blocks.values.flatMap (·.instructions)).filterMap fun inst =>
    inst.dest.map fun dest => (dest, inst))

section Sources

variable (definitions : OrdMap IrId IrInstruction)

def intConst (reg : IrId) : Option (BitVec 32) :=
  match definitions.get? reg with
  | some (.const _ (.i32 value)) => some value
  | _ => none

/-- `f.fract() == 0.0 && f.abs() < 2147483648.0`, and then `f as i32`. -/
def wholeConst (bits : BitVec 64) : Option (BitVec 32) :=
  let datum := Binary.decode .binary64 bits.toNat
  if datum.isWhole && (Binary.absDatum datum).lt (.finite false 1 31) then
    some (BitVec.ofInt 32 (Conv.saturated bits.toNat 32))
  else none

def source (reg : IrId) : Option IntSource :=
  match definitions.get? reg with
  | some (.cast _ src .i32 .f64) =>
      some (match intConst definitions src with
        | some constant => .constant constant
        | none => .value src)
  | some (.const _ (.f64 bits)) => (wholeConst bits).map .constant
  | _ => none

/-- The operands of the Float division an argument is the result of. -/
def division (arg : IrId) : Option (IrId × IrId) :=
  match definitions.get? arg with
  | some (.binOp _ .div left right) | some (.binOp _ .fdiv left right) => some (left, right)
  | _ => none

end Sources

structure QuotientSite where
  block : IrBlockId
  idx : Nat
  dest : IrId
  dividend : IrId
  divisor : BitVec 32

/-- Where the call stands. -/
def QuotientSite.position (site : QuotientSite) : IrBlockId ×ₗ Nat := toLex (site.block, site.idx)

def siteAt (callees : List IrFunctionId) (definitions : OrdMap IrId IrInstruction)
    (block : IrBlockId) (placed : IrInstruction × Nat) : Option QuotientSite :=
  match placed.1 with
  | .callDirect (some dest) func [arg] _ =>
      if callees.contains func then
        match division definitions arg with
        | some (left, right) =>
            match source definitions left, source definitions right with
            | some (.value dividend), some (.constant divisor) =>
                if divisor = 0 ∨ divisor = -1 then none
                else some ⟨block, placed.2, dest, dividend, divisor⟩
            | _, _ => none
        | none => none
      else none
  | _ => none

def sites (callees : List IrFunctionId) (function : IrFunction) : List QuotientSite :=
  function.cfg.blocks.entries.flatMap fun entry =>
    entry.2.instructions.zipIdx.filterMap (siteAt callees (defs function) entry.1)

/-- Highest index first, so earlier sites in a block keep their positions. -/
def sortedSites (callees : List IrFunctionId) (function : IrFunction) : List QuotientSite :=
  (sites callees function).mergeSort fun one other =>
    decide (other.position ≤ one.position)

def conversion (toTy : IrType) (dest quotient : IrId) : IrInstruction :=
  if toTy = .i32 then .copy dest quotient else .cast dest quotient .i32 toTy

def replacement (toTy : IrType) (site : QuotientSite) (constant quotient : IrId) :
    List IrInstruction :=
  [.const constant (.i32 site.divisor), .binOp quotient .div site.dividend constant,
    conversion toTy site.dest quotient]

/-- The type a call's destination is declared with, `I64` by default. -/
def destType (function : IrFunction) (dest : IrId) : IrType :=
  (function.registerTypes.get? dest).getD .i64

def splice (idx : Nat) (replaced instructions : List IrInstruction) : List IrInstruction :=
  instructions.take idx ++ replaced ++ instructions.drop (idx + 1)

def replaceCall (toTy : IrType) (site : QuotientSite) (constant quotient : IrId)
    (block : IrBasicBlock) : IrBasicBlock :=
  { block with
    instructions := splice site.idx (replacement toTy site constant quotient) block.instructions }

/-- One turn of the loop over the sites. -/
def rewriteSite (function : IrFunction) (site : QuotientSite) : IrFunction :=
  let constant := function.nextRegId
  let quotient := function.nextRegId + 1
  let registerTypes := (function.registerTypes.insert constant .i32).insert quotient .i32
  let toTy := (registerTypes.get? site.dest).getD .i64
  { function with
    nextRegId := function.nextRegId + 2
    registerTypes
    cfg := function.cfg.modifyBlock site.block (replaceCall toTy site constant quotient) }

/-- What the pass makes of one function. -/
def rewrite (callees : List IrFunctionId) (function : IrFunction) : IrFunction :=
  (sortedSites callees function).foldl rewriteSite function

/-! ### The sites -/

variable {function : IrFunction} {callees : List IrFunctionId} {site other : QuotientSite}

/-- What the pass has checked where it finds a site. -/
structure Found (callees : List IrFunctionId) (function : IrFunction) (site : QuotientSite)
    (block : IrBasicBlock) (func : IrFunctionId) (arg left right : IrId)
    (typeArgs : List IrType) : Prop where
  found : function.getBlock site.block = some block
  here : block.instructions[site.idx]? = some (.callDirect (some site.dest) func [arg] typeArgs)
  callee : func ∈ callees
  division : division (defs function) arg = some (left, right)
  dividend : source (defs function) left = some (.value site.dividend)
  divisor : source (defs function) right = some (.constant site.divisor)
  nonzero : site.divisor ≠ 0
  notMinusOne : site.divisor ≠ -1

theorem siteAt_eq_some {id : IrBlockId} {placed : IrInstruction × Nat}
    (isSite : siteAt callees (defs function) id placed = some site) :
    site.block = id ∧ site.idx = placed.2 ∧ ∃ func arg left right typeArgs,
      placed.1 = .callDirect (some site.dest) func [arg] typeArgs ∧ func ∈ callees ∧
        division (defs function) arg = some (left, right) ∧
        source (defs function) left = some (.value site.dividend) ∧
        source (defs function) right = some (.constant site.divisor) ∧
        site.divisor ≠ 0 ∧ site.divisor ≠ -1 := by
  obtain ⟨inst, idx⟩ := placed
  unfold siteAt at isSite
  split at isSite
  · next dest func arg typeArgs isCall =>
      split_ifs at isSite with isCallee
      split at isSite
      · next left right isDivision =>
          split at isSite
          · next dividend divisor isDividend isDivisor =>
              split_ifs at isSite with excluded
              cases isSite
              rw [not_or] at excluded
              exact ⟨rfl, rfl, func, arg, left, right, typeArgs, isCall,
                List.contains_iff_mem.mp isCallee, isDivision, isDividend, isDivisor, excluded.1,
                excluded.2⟩
          · cases isSite
      · cases isSite
  · cases isSite

theorem found_of_mem (member : site ∈ sites callees function) :
    ∃ block func arg left right typeArgs,
      Found callees function site block func arg left right typeArgs := by
  obtain ⟨⟨id, block⟩, isBlock, inBlock⟩ := List.mem_flatMap.mp member
  obtain ⟨⟨inst, idx⟩, isPlaced, isSite⟩ := List.mem_filterMap.mp inBlock
  obtain ⟨rfl, rfl, func, arg, left, right, typeArgs, isCall, isCallee, isDivision, isDividend,
    isDivisor, nonzero, notMinusOne⟩ := siteAt_eq_some isSite
  have here := List.mk_mem_zipIdx_iff_getElem?.mp isPlaced
  exact ⟨block, func, arg, left, right, typeArgs,
    { found := (OrdMap.mem_entries_iff _ _ _).mp isBlock
      here := isCall ▸ here
      callee := isCallee
      division := isDivision
      dividend := isDividend
      divisor := isDivisor
      nonzero := nonzero
      notMinusOne := notMinusOne }⟩

theorem sites_ordered (callees : List IrFunctionId) (function : IrFunction) :
    (sites callees function).Pairwise fun one other => one.position < other.position := by
  unfold sites
  rw [List.pairwise_flatMap]
  constructor
  · intro entry _
    have placed : entry.2.instructions.zipIdx.Pairwise fun one other => one.2 < other.2 := by
      rw [← List.pairwise_map (R := (· < ·)), List.zipIdx_map_snd]
      exact List.pairwise_lt_range'
    apply placed.filterMap
    intro one other order site isSite site' isSite'
    obtain ⟨sameBlock, isIdx, -⟩ := siteAt_eq_some isSite
    obtain ⟨sameBlock', isIdx', -⟩ := siteAt_eq_some isSite'
    rw [← isIdx, ← isIdx'] at order
    exact Prod.Lex.toLex_lt_toLex.mpr (Or.inr ⟨sameBlock.trans sameBlock'.symm, order⟩)
  · apply List.Pairwise.imp _ (List.pairwise_map.mp (OrdMap.keys_sorted function.cfg.blocks))
    intro entry entry' order site member site' member'
    obtain ⟨placed, -, isSite⟩ := List.mem_filterMap.mp member
    obtain ⟨placed', -, isSite'⟩ := List.mem_filterMap.mp member'
    rw [← (siteAt_eq_some isSite).1, ← (siteAt_eq_some isSite').1] at order
    exact Prod.Lex.toLex_lt_toLex.mpr (Or.inl order)

theorem sortedSites_perm (callees : List IrFunctionId) (function : IrFunction) :
    (sortedSites callees function).Perm (sites callees function) := List.mergeSort_perm _ _

theorem sortedSites_ordered (callees : List IrFunctionId) (function : IrFunction) :
    (sortedSites callees function).Pairwise fun one other => other.position < one.position := by
  have ordered : (sortedSites callees function).Pairwise fun one other =>
      decide (other.position ≤ one.position) = true := by
    apply List.pairwise_mergeSort
    · intro first second third isFirst isSecond
      rw [decide_eq_true_eq] at isFirst isSecond ⊢
      exact isSecond.trans isFirst
    · intro first second
      rw [Bool.or_eq_true, decide_eq_true_eq, decide_eq_true_eq]
      exact le_total _ _
  have apart : (sortedSites callees function).Pairwise fun one other =>
      one.position ≠ other.position := by
    rw [(sortedSites_perm callees function).pairwise_iff fun distinct => distinct.symm]
    exact (sites_ordered callees function).imp fun before => before.ne
  apply List.Pairwise.imp₂ _ ordered apart
  intro one other order distinct
  exact lt_of_le_of_ne (of_decide_eq_true order) distinct.symm

/-! ### Where the replacements stand -/

section Splice

variable {idx place : Nat} {replaced instructions : List IrInstruction}

theorem splice_before (inside : idx < instructions.length) (before : place < idx) :
    (splice idx replaced instructions)[place]? = instructions[place]? := by
  have length : (instructions.take idx).length = idx := List.length_take_of_le inside.le
  rw [splice, List.append_assoc, List.getElem?_append_left (length.symm ▸ before),
    List.getElem?_take_of_lt before]

theorem splice_inside (inside : idx < instructions.length) (within : place < replaced.length) :
    (splice idx replaced instructions)[idx + place]? = replaced[place]? := by
  have length : (instructions.take idx).length = idx := List.length_take_of_le inside.le
  rw [splice, List.append_assoc, List.getElem?_append_right (by omega), length,
    Nat.add_sub_cancel_left, List.getElem?_append_left within]

theorem splice_behind (inside : idx < instructions.length) (three : replaced.length = 3)
    (behind : idx < place) :
    (splice idx replaced instructions)[place + 2]? = instructions[place]? := by
  have length : (instructions.take idx ++ replaced).length = idx + 3 := by
    rw [List.length_append, List.length_take_of_le inside.le, three]
  rw [splice, List.getElem?_append_right (by omega), length, List.getElem?_drop]
  congr 1
  omega

end Splice

/-- Where an instruction stands once these calls are replaced: each replacement
in front of it moves it by two places. -/
def shifted (replaced : List QuotientSite) (id : IrBlockId) (idx : Nat) : Nat :=
  idx + 2 * replaced.countP fun site => site.block == id && decide (site.idx < idx)

section Shifted

variable {replaced : List QuotientSite} {id : IrBlockId} {idx : Nat}

theorem shifted_cons_before (sameBlock : site.block = id) (before : site.idx < idx) :
    shifted (site :: replaced) id idx = shifted replaced id idx + 2 := by
  have counted : (site.block == id && decide (site.idx < idx)) = true := by
    simp [sameBlock, before]
  rw [shifted, List.countP_cons, if_pos counted, shifted]
  omega

theorem shifted_cons_behind (behind : site.block = id → idx ≤ site.idx) :
    shifted (site :: replaced) id idx = shifted replaced id idx := by
  have notCounted : ¬(site.block == id && decide (site.idx < idx)) = true := by
    rw [Bool.and_eq_true, beq_iff_eq, decide_eq_true_eq]
    exact fun both => absurd both.2 (Nat.not_lt.mpr (behind both.1))
  rw [shifted, List.countP_cons, if_neg notCounted, shifted, Nat.add_zero]

theorem shifted_of_first
    (first : ∀ site ∈ replaced, site.block = id → idx ≤ site.idx) :
    shifted replaced id idx = idx := by
  induction replaced with
  | nil => rfl
  | cons site rest ih =>
      rw [shifted_cons_behind (first site List.mem_cons_self)]
      exact ih fun other member => first other (List.mem_cons_of_mem _ member)

theorem shifted_perm {replaced' : List QuotientSite} (perm : replaced.Perm replaced') :
    shifted replaced id idx = shifted replaced' id idx := by
  rw [shifted, perm.countP_eq, shifted]

end Shifted

/-- The instructions from here on do what the call did, with registers of their
own. -/
structure Replaces (function rewritten : IrFunction) (site : QuotientSite)
    (instructions : List IrInstruction) (pc : Nat) (constant quotient : IrId) : Prop where
  here : ∀ place < 3, instructions[pc + place]? =
    (replacement (destType function site.dest) site constant quotient)[place]?
  newConstant : function.nextRegId ≤ constant
  newQuotient : function.nextRegId ≤ quotient
  apart : constant ≠ quotient
  allocated : quotient < rewritten.nextRegId
  isInt : rewritten.registerTypes.get? quotient = some .i32

structure Rewrites (function : IrFunction) (replaced : List QuotientSite)
    (rewritten : IrFunction) : Prop where
  grown : function.nextRegId ≤ rewritten.nextRegId
  types : ∀ reg < function.nextRegId,
    rewritten.registerTypes.get? reg = function.registerTypes.get? reg
  blocks : ∀ {id block}, function.getBlock id = some block →
    ∃ block', rewritten.getBlock id = some block' ∧
      (∀ idx, (∀ site ∈ replaced, site.position ≠ toLex (id, idx)) →
        block'.instructions[shifted replaced id idx]? = block.instructions[idx]?) ∧
      ∀ site ∈ replaced, site.block = id → ∃ constant quotient,
        Replaces function rewritten site block'.instructions (shifted replaced id site.idx)
          constant quotient

section Rewriting

variable {rewritten : IrFunction} {replaced : List QuotientSite}

theorem Rewrites.start (function : IrFunction) : Rewrites function [] function where
  grown := le_refl _
  types := fun _ _ => rfl
  blocks := fun {_ block} found =>
    ⟨block, found, fun _ _ => rfl, fun _ member => absurd member List.not_mem_nil⟩

theorem rewriteSite_types {reg : IrId} (old : reg < rewritten.nextRegId) :
    (rewriteSite rewritten site).registerTypes.get? reg = rewritten.registerTypes.get? reg := by
  unfold rewriteSite
  rw [OrdMap.get?_insert_of_ne _ _ (old.trans (Nat.lt_succ_self _)).ne,
    OrdMap.get?_insert_of_ne _ _ old.ne]

theorem Replaces.later {instructions : List IrInstruction} {pc : Nat} {constant quotient : IrId}
    (replaces : Replaces function rewritten other instructions pc constant quotient) :
    Replaces function (rewriteSite rewritten site) other instructions pc constant quotient :=
  { replaces with
    allocated := replaces.allocated.trans_le (Nat.le_add_right _ _)
    isInt := (rewriteSite_types replaces.allocated).trans replaces.isInt }

theorem getBlock_rewriteSite (id : IrBlockId) :
    (rewriteSite rewritten site).getBlock id =
      if id = site.block then (rewritten.getBlock id).map
        (replaceCall (destType (rewriteSite rewritten site) site.dest) site rewritten.nextRegId
          (rewritten.nextRegId + 1))
      else rewritten.getBlock id :=
  IrControlFlowGraph.getBlock_modifyBlock _ _ _ _

/-- One more call replaced, before all those replaced already. -/
theorem Rewrites.step (rewrites : Rewrites function replaced rewritten)
    {block : IrBasicBlock} (found : function.getBlock site.block = some block)
    (inside : site.idx < block.instructions.length) (old : site.dest < function.nextRegId)
    (ahead : ∀ other ∈ replaced, site.position < other.position) :
    Rewrites function (site :: replaced) (rewriteSite rewritten site) where
  grown := rewrites.grown.trans (Nat.le_add_right _ _)
  types := fun reg isOld =>
    (rewriteSite_types (isOld.trans_le rewrites.grown)).trans (rewrites.types reg isOld)
  blocks := by
    intro id block' found'
    obtain ⟨before, isBefore, untouched, atSites⟩ := rewrites.blocks found'
    have behind : ∀ other ∈ replaced, other.block = site.block → site.idx < other.idx := by
      intro other member sameBlock
      have order := Prod.Lex.toLex_lt_toLex.mp (ahead other member)
      exact (order.resolve_left fun less => absurd less (sameBlock ▸ lt_irrefl _)).2
    by_cases sameBlock : id = site.block
    · subst sameBlock
      cases found.symm.trans found'
      have isType : destType (rewriteSite rewritten site) site.dest =
          destType function site.dest := by
        rw [destType, rewriteSite_types (old.trans_le rewrites.grown), rewrites.types _ old,
          destType]
      have isFirst : shifted replaced site.block site.idx = site.idx :=
        shifted_of_first fun other member same => (behind other member same).le
      have isInside : site.idx < before.instructions.length := by
        have here := untouched site.idx fun other member same =>
          absurd (ahead other member) (same ▸ lt_irrefl _)
        rw [isFirst, List.getElem?_eq_getElem inside] at here
        exact (List.getElem?_eq_some_iff.mp here).1
      refine ⟨replaceCall (destType function site.dest) site rewritten.nextRegId
        (rewritten.nextRegId + 1) before, ?_, ?_, ?_⟩
      · rw [getBlock_rewriteSite, if_pos rfl, isBefore, isType, Option.map_some]
      · intro idx notSite
        have distinct : site.idx ≠ idx := fun same =>
          notSite site List.mem_cons_self (by rw [QuotientSite.position, same])
        have others := untouched idx fun other member =>
          notSite other (List.mem_cons_of_mem _ member)
        obtain less | greater := lt_or_gt_of_ne distinct
        · rw [shifted_cons_before rfl less, ← others]
          apply splice_behind isInside rfl
          exact less.trans_le (Nat.le_add_right _ _)
        · rw [shifted_cons_behind fun _ => greater.le]
          rw [shifted_of_first fun other member same =>
            (greater.trans (behind other member same)).le] at others ⊢
          rw [← others]
          exact splice_before isInside greater
      · intro other member sameBlock
        obtain rfl | member := List.mem_cons.mp member
        · refine ⟨rewritten.nextRegId, rewritten.nextRegId + 1, ?_⟩
          rw [shifted_cons_behind fun _ => le_refl _, isFirst]
          exact
            { here := fun place within => splice_inside isInside within
              newConstant := rewrites.grown
              newQuotient := rewrites.grown.trans (Nat.le_succ _)
              apart := (Nat.lt_succ_self _).ne
              allocated := Nat.lt_succ_self _
              isInt := OrdMap.get?_insert_self _ _ _ }
        · obtain ⟨constant, quotient, replaces⟩ := atSites other member sameBlock
          have less := behind other member sameBlock
          refine ⟨constant, quotient, { replaces.later with here := fun place within => ?_ }⟩
          rw [shifted_cons_before rfl less, Nat.add_right_comm, ← replaces.here place within]
          apply splice_behind isInside rfl
          exact less.trans_le (Nat.le_add_right_of_le (Nat.le_add_right _ _))
    · have otherBlock : site.block ≠ id := Ne.symm sameBlock
      refine ⟨before, ?_, ?_, ?_⟩
      · rw [getBlock_rewriteSite, if_neg sameBlock, isBefore]
      · intro idx notSite
        rw [shifted_cons_behind fun same => absurd same otherBlock]
        exact untouched idx fun other member => notSite other (List.mem_cons_of_mem _ member)
      · intro other member isBlock
        obtain rfl | member := List.mem_cons.mp member
        · exact absurd isBlock otherBlock
        · obtain ⟨constant, quotient, replaces⟩ := atSites other member isBlock
          rw [shifted_cons_behind fun same => absurd same otherBlock]
          exact ⟨constant, quotient, replaces.later⟩

theorem Rewrites.run {todo : List QuotientSite} (rewrites : Rewrites function replaced rewritten)
    (ordered : todo.Pairwise fun one other => other.position < one.position)
    (ahead : ∀ site ∈ todo, ∀ other ∈ replaced, site.position < other.position)
    (standing : ∀ site ∈ todo, ∃ block, function.getBlock site.block = some block ∧
      site.idx < block.instructions.length ∧ site.dest < function.nextRegId) :
    Rewrites function (todo.reverse ++ replaced) (todo.foldl rewriteSite rewritten) := by
  induction todo generalizing replaced rewritten with
  | nil => exact rewrites
  | cons site todo ih =>
      obtain ⟨block, found, inside, old⟩ := standing site List.mem_cons_self
      have next := rewrites.step found inside old (ahead site List.mem_cons_self)
      rw [List.pairwise_cons] at ordered
      rw [List.reverse_cons, List.append_assoc]
      apply ih next ordered.2
      · intro other member behind isBehind
        obtain rfl | isBehind := List.mem_cons.mp isBehind
        · exact ordered.1 other member
        · exact ahead other (List.mem_cons_of_mem _ member) behind isBehind
      · exact fun other member => standing other (List.mem_cons_of_mem _ member)

theorem Rewrites.perm {replaced' : List QuotientSite}
    (rewrites : Rewrites function replaced rewritten) (perm : replaced.Perm replaced') :
    Rewrites function replaced' rewritten where
  grown := rewrites.grown
  types := rewrites.types
  blocks := by
    intro id block found
    obtain ⟨block', found', untouched, atSites⟩ := rewrites.blocks found
    refine ⟨block', found', fun idx notSite => ?_, fun site member sameBlock => ?_⟩
    · rw [← shifted_perm perm]
      exact untouched idx fun site member => notSite site (perm.mem_iff.mp member)
    · rw [← shifted_perm perm]
      exact atSites site (perm.mem_iff.mpr member) sameBlock

/-- Every register that an instruction names has been allocated. -/
def Allocated (function : IrFunction) : Prop :=
  ∀ {id block}, function.getBlock id = some block → ∀ inst ∈ block.instructions,
    ∀ reg ∈ inst.uses ++ inst.dest.toList, reg < function.nextRegId

/-- The pass replaces every site and moves everything else along. -/
theorem rewrites_rewrite (allocated : Allocated function) :
    Rewrites function (sites callees function) (rewrite callees function) := by
  have replaced := (Rewrites.start function).run (sortedSites_ordered callees function)
    (fun _ _ _ member => absurd member List.not_mem_nil) (by
      intro site member
      obtain ⟨block, func, arg, left, right, typeArgs, isFound⟩ :=
        found_of_mem ((sortedSites_perm callees function).mem_iff.mp member)
      have inside := (List.getElem?_eq_some_iff.mp isFound.here).1
      refine ⟨block, isFound.found, inside, ?_⟩
      exact allocated isFound.found _ (List.mem_of_getElem? isFound.here) _ (by simp
        [IrInstruction.dest]))
  rw [List.append_nil] at replaced
  exact replaced.perm ((List.reverse_perm _).trans (sortedSites_perm callees function))

end Rewriting

end Rayzor.Passes.IntQuotient
