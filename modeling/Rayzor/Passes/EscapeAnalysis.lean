import Rayzor.Library.Saturation
import Rayzor.Ssa.Checked
import Rayzor.Ssa.Reads

/-!
Contract: intra-loop escape analysis of allocations against where the address of an allocation can
get to within one iteration.

Owns: the analysis, the registers that hold an address derived from an allocation along an
iteration, the places an address leaves an iteration by, and what the analysis does not look at.
-/

namespace Rayzor.Passes.EscapeAnalysis

open Ir Interp Library Ssa

/-- A loop as the analysis is given it. -/
structure Loop where
  blocks : List IrBlockId
  header : IrBlockId
  backEdgeSources : List IrBlockId
  headerInside : header ∈ blocks

structure AllocEscapeInfo where
  allocDest : IrId
  allocLocation : IrBlockId × Nat
  escapes : Bool
  freeLocation : Option (IrBlockId × Nat)
  deriving DecidableEq

def loopBlocks (function : IrFunction) (loop : Loop) : List (IrBlockId × IrBasicBlock) :=
  loop.blocks.filterMap fun id => (function.getBlock id).map fun block => (id, block)

def loopInstructions (function : IrFunction) (loop : Loop) : List IrInstruction :=
  (loopBlocks function loop).flatMap (·.2.instructions)

def isDefinedInLoop (function : IrFunction) (loop : Loop) (id : IrId) : Bool :=
  (loopBlocks function loop).any fun entry =>
    entry.2.phiNodes.any (·.dest == id) || entry.2.instructions.any (·.dest == some id)

def derivedFrom (tracked : List IrId) : IrInstruction → Option IrId
  | .ptrAdd dest ptr _ _ => if ptr ∈ tracked then some dest else none
  | .getElementPtr dest ptr _ _ => if ptr ∈ tracked then some dest else none
  | .cast dest src _ _ => if src ∈ tracked then some dest else none
  | .bitCast dest src _ => if src ∈ tracked then some dest else none
  | .copy dest src => if src ∈ tracked then some dest else none
  | _ => none

/-- Derived pointers can chain, so the loop is gone over until nothing is added. -/
def buildTrackedPointers (function : IrFunction) (loop : Loop) (allocDest : IrId) : List IrId :=
  let instructions := loopInstructions function loop
  Saturation.saturate derivedFrom instructions (instructions.length + 1) [allocDest]

/-- The operands of which none may be tracked. -/
def checkedOperands : IrInstruction → List IrId
  | .store _ value _ => [value]
  | .callDirect _ _ args _ => args
  | .callIndirect _ funcPtr args _ => funcPtr :: args
  | .returnValue value => value.toList
  | .memCopy _ src _ => [src]
  | .storeGlobal _ value => [value]
  | .makeClosure _ _ capturedValues => capturedValues
  | .throw exception => [exception]
  | _ => []

def crossesBackEdge (loop : Loop) (tracked : List IrId) (phi : IrPhiNode) : Bool :=
  phi.incoming.any fun entry =>
    decide (entry.1 ∈ loop.backEdgeSources) && decide (entry.2 ∈ tracked)

def checkEscapes (function : IrFunction) (loop : Loop) (tracked : List IrId) : Bool :=
  (loopBlocks function loop).any fun entry =>
    (entry.1 == loop.header && entry.2.phiNodes.any (crossesBackEdge loop tracked)) ||
      entry.2.instructions.any fun inst => (checkedOperands inst).any (· ∈ tracked)

def isFreeOf (tracked : List IrId) : IrInstruction → Bool
  | .free ptr => ptr ∈ tracked
  | _ => false

def indexed (id : IrBlockId) (block : IrBasicBlock) : List ((IrBlockId × Nat) × IrInstruction) :=
  block.instructions.zipIdx.map fun entry => ((id, entry.2), entry.1)

/-- The one place where a tracked pointer is freed. -/
def findMatchingFree (function : IrFunction) (loop : Loop) (tracked : List IrId) :
    Option (IrBlockId × Nat) :=
  let frees := ((loopBlocks function loop).flatMap fun entry => indexed entry.1 entry.2).filter
    fun entry => isFreeOf tracked entry.2
  match frees with
  | [found] => some found.1
  | _ => none

def escaping (allocDest : IrId) (allocLocation : IrBlockId × Nat) : AllocEscapeInfo where
  allocDest
  allocLocation
  escapes := true
  freeLocation := none

def analyzeSingleAlloc (function : IrFunction) (loop : Loop) (allocDest : IrId)
    (allocLocation : IrBlockId × Nat) : AllocEscapeInfo :=
  let tracked := buildTrackedPointers function loop allocDest
  if checkEscapes function loop tracked then escaping allocDest allocLocation
  else
    match findMatchingFree function loop tracked with
    | some location => { allocDest, allocLocation, escapes := false, freeLocation := some location }
    | none => escaping allocDest allocLocation

def analyzeInstruction (function : IrFunction) (loop : Loop) (location : IrBlockId × Nat) :
    IrInstruction → Option AllocEscapeInfo
  | .alloc dest _ count =>
      if count.any (isDefinedInLoop function loop) then some (escaping dest location)
      else some (analyzeSingleAlloc function loop dest location)
  | _ => none

def analyzeAllocEscapes (function : IrFunction) (loop : Loop) : List AllocEscapeInfo :=
  ((loopBlocks function loop).flatMap fun entry => indexed entry.1 entry.2).filterMap
    fun entry => analyzeInstruction function loop entry.1 entry.2

section Answers

variable {function : IrFunction} {loop : Loop} {tracked : List IrId}

theorem mem_loopBlocks {id : IrBlockId} {block : IrBasicBlock} :
    (id, block) ∈ loopBlocks function loop ↔
      id ∈ loop.blocks ∧ function.getBlock id = some block := by
  simp only [loopBlocks, List.mem_filterMap, Option.map_eq_some_iff, Prod.mk.injEq]
  constructor
  · rintro ⟨other, member, found, isBlock, rfl, rfl⟩
    exact ⟨member, isBlock⟩
  · rintro ⟨member, found⟩
    exact ⟨id, member, block, found, rfl, rfl⟩

theorem mem_loopInstructions {id : IrBlockId} {block : IrBasicBlock} {inst : IrInstruction}
    (inside : id ∈ loop.blocks) (found : function.getBlock id = some block)
    (member : inst ∈ block.instructions) : inst ∈ loopInstructions function loop :=
  List.mem_flatMap.mpr ⟨(id, block), mem_loopBlocks.mpr ⟨inside, found⟩, member⟩

theorem derivedFrom_writes {inst : IrInstruction} {dest : IrId}
    (derived : derivedFrom tracked inst = some dest) : inst.writes = some dest := by
  cases inst
  case ptrAdd => exact (Option.ite_none_right_eq_some.mp derived).2
  case getElementPtr => exact (Option.ite_none_right_eq_some.mp derived).2
  case cast => exact (Option.ite_none_right_eq_some.mp derived).2
  case bitCast => exact (Option.ite_none_right_eq_some.mp derived).2
  case copy => exact (Option.ite_none_right_eq_some.mp derived).2
  all_goals cases derived

theorem tracked_closed (allocDest : IrId) {id : IrBlockId} {block : IrBasicBlock}
    {inst : IrInstruction} {dest : IrId} (inside : id ∈ loop.blocks)
    (found : function.getBlock id = some block) (member : inst ∈ block.instructions)
    (derived : derivedFrom (buildTrackedPointers function loop allocDest) inst = some dest) :
    dest ∈ buildTrackedPointers function loop allocDest := by
  have named : ∀ found inst dest, derivedFrom found inst = some dest →
      IrInstruction.writes inst = some dest := fun _ _ _ derived => derivedFrom_writes derived
  exact Saturation.closed_saturate named (List.nodup_singleton allocDest) inst
    (mem_loopInstructions inside found member) dest derived

theorem allocDest_tracked (allocDest : IrId) :
    allocDest ∈ buildTrackedPointers function loop allocDest :=
  Saturation.subset_saturate _ _ _ (List.mem_singleton_self allocDest)

structure Reported (function : IrFunction) (loop : Loop) (info : AllocEscapeInfo) : Prop where
  operands : ∀ {id block inst reg}, id ∈ loop.blocks → function.getBlock id = some block →
    inst ∈ block.instructions → reg ∈ checkedOperands inst →
    reg ∉ buildTrackedPointers function loop info.allocDest
  phis : ∀ {block phi source reg}, function.getBlock loop.header = some block →
    phi ∈ block.phiNodes → phi.valueFrom source = some reg → source ∈ loop.backEdgeSources →
    reg ∉ buildTrackedPointers function loop info.allocDest
  allocation : ∃ block ty count, function.getBlock info.allocLocation.1 = some block ∧
    block.instructions[info.allocLocation.2]? = some (.alloc info.allocDest ty count)

theorem not_checkEscapes (passed : checkEscapes function loop tracked = false) :
    (∀ {id block inst reg}, id ∈ loop.blocks → function.getBlock id = some block →
      inst ∈ block.instructions → reg ∈ checkedOperands inst → reg ∉ tracked) ∧
    ∀ {block phi source reg}, function.getBlock loop.header = some block →
      phi ∈ block.phiNodes → phi.valueFrom source = some reg → source ∈ loop.backEdgeSources →
      reg ∉ tracked := by
  have none : ∀ entry ∈ loopBlocks function loop,
      ¬((entry.1 == loop.header && entry.2.phiNodes.any (crossesBackEdge loop tracked)) ||
        entry.2.instructions.any fun inst => (checkedOperands inst).any (· ∈ tracked)) = true :=
    List.any_eq_false.mp passed
  constructor
  · intro id block inst reg inside found member operand isTracked
    apply none (id, block) (mem_loopBlocks.mpr ⟨inside, found⟩)
    have stored : (checkedOperands inst).any (· ∈ tracked) = true :=
      List.any_eq_true.mpr ⟨reg, operand, decide_eq_true isTracked⟩
    rw [List.any_eq_true.mpr ⟨inst, member, stored⟩, Bool.or_true]
  · intro block phi source reg found member taken backEdge isTracked
    apply none (loop.header, block) (mem_loopBlocks.mpr ⟨loop.headerInside, found⟩)
    have crosses : crossesBackEdge loop tracked phi = true :=
      List.any_eq_true.mpr ⟨_, mem_incoming_of_valueFrom taken, by simp [backEdge, isTracked]⟩
    rw [List.any_eq_true.mpr ⟨phi, member, crosses⟩]
    simp

theorem reported {info : AllocEscapeInfo} (member : info ∈ analyzeAllocEscapes function loop)
    (contained : info.escapes = false) : Reported function loop info := by
  obtain ⟨⟨location, other⟩, place, analyzed⟩ := List.mem_filterMap.mp member
  obtain ⟨⟨id, block⟩, inBlocks, inBlock⟩ := List.mem_flatMap.mp place
  obtain ⟨⟨inst, index⟩, inList, same⟩ := List.mem_map.mp inBlock
  cases same
  have here : block.instructions[index]? = some inst := List.mem_zipIdx_iff_getElem?.mp inList
  have found := (mem_loopBlocks.mp inBlocks).2
  cases inst
  case alloc dest ty count =>
    simp only [analyzeInstruction] at analyzed
    by_cases dynamic : count.any (isDefinedInLoop function loop) = true
    · rw [if_pos dynamic] at analyzed
      cases analyzed
      cases contained
    · rw [if_neg dynamic] at analyzed
      cases analyzed
      unfold analyzeSingleAlloc at contained ⊢
      cases passed : checkEscapes function loop (buildTrackedPointers function loop dest) with
      | true =>
          simp only [passed, if_true] at contained
          cases contained
      | false =>
          have checked := not_checkEscapes passed
          simp only [passed, Bool.false_eq_true, if_false] at contained ⊢
          cases freed : findMatchingFree function loop (buildTrackedPointers function loop dest) with
          | none =>
              simp only [freed] at contained
              cases contained
          | some place => exact ⟨checked.1, checked.2, block, ty, count, found, here⟩
  all_goals cases analyzed

end Answers

/-- The operands that the word of the result is computed from. What is read from memory, and the
answer of a comparison, is no address of the operands. -/
def carried : IrInstruction → List IrId
  | .copy _ src | .move _ src | .ssaBarrier _ src _ | .borrowImmutable _ src => [src]
  | .borrowMutable _ src | .closureFunc _ src | .cast _ src _ _ | .bitCast _ src _ => [src]
  | .binOp _ _ left right => [left, right]
  | .unOp _ _ operand => [operand]
  | .select _ _ trueVal falseVal => [trueVal, falseVal]
  | .ptrAdd _ ptr offset _ => [ptr, offset]
  | .getElementPtr _ ptr indices _ => ptr :: indices
  | .insertValue _ aggregate _ _ => [aggregate]
  | .vectorBinOp _ left right | .vectorMinMax _ left right => [left, right]
  | .vectorExtract _ vector | .vectorReduce _ vector | .vectorInsert _ vector _ => [vector]
  | .vectorUnaryOp _ operand | .vectorConvert _ operand => [operand]
  | .vectorDot _ acc a b => [acc, a, b]
  | .vectorShuffle _ a idx => [a, idx]
  | .vectorNarrow _ lo hi => [lo, hi]
  | _ => []

/-- The operands that go to memory, to a call, into a closure or an aggregate, or out of the
function. -/
def leaving : IrInstruction → List IrId
  | .store _ value _ | .memSet _ value _ | .vectorStore _ value | .storeGlobal _ value => [value]
  | .atomicStore _ value | .atomicRmw _ _ _ value _ => [value]
  | .atomicCas _ _ _ replacement => [replacement]
  | .callDirect _ _ args _ => args
  | .callIndirect _ funcPtr args _ => funcPtr :: args
  | .makeClosure _ _ capturedValues => capturedValues
  | .createStruct _ _ fields => fields
  | .createUnion _ _ value | .insertValue _ _ value _ => [value]
  | .vectorSplat _ scalar | .vectorInsert _ _ scalar => [scalar]
  | .returnValue value => value.toList
  | .throw exception | .resume exception => [exception]
  | .inlineAsm _ inputs => inputs
  | _ => []

/-- The registers that hold the address or one derived from it once an instruction is done. -/
def derivedAfter (allocLocation place : IrBlockId × Nat) (inst : IrInstruction)
    (derived : Set IrId) : Set IrId :=
  { reg | if inst.writes = some reg then place = allocLocation ∨ ∃ src ∈ carried inst, src ∈ derived
    else reg ∈ derived }

/-- The registers that hold it once an edge is taken: a phi of the target does if its value did. -/
def derivedAcross (target : IrBasicBlock) (source : IrBlockId) (derived : Set IrId) : Set IrId :=
  { reg | (∃ phi ∈ target.phiNodes, phi.dest = reg ∧
      ∃ value ∈ derived, phi.valueFrom source = some value) ∨
    reg ∉ target.phiNodes.map (·.dest) ∧ reg ∈ derived }

section Iterations

variable {E : Type} {module : IrModule} {host : Host E} {function : IrFunction} {loop : Loop}
  {allocLocation : IrBlockId × Nat}

/-- The states of an iteration from any state at the header on, with the registers that hold an
address derived from an allocation made at the location in this iteration. -/
inductive Iteration (module : IrModule) (host : Host E) (function : IrFunction) (loop : Loop)
    (allocLocation : IrBlockId × Nat) : State E → Set IrId → Prop where
  | start {state : State E} (atHeader : pointOf state = (loop.header, 0)) :
      Iteration module host function loop allocLocation state ∅
  | executed {state next : State E} {derived : Set IrId} {block : IrBasicBlock}
      {inst : IrInstruction}
      (before : Iteration module host function loop allocLocation state derived)
      (found : function.getBlock state.block = some block)
      (here : block.instructions[state.pc]? = some inst)
      (stepped : Stepped module host function state next) :
      Iteration module host function loop allocLocation next
        (derivedAfter allocLocation (pointOf state) inst derived)
  | moved {state next : State E} {derived : Set IrId} {block target : IrBasicBlock}
      (before : Iteration module host function loop allocLocation state derived)
      (found : function.getBlock state.block = some block)
      (done : block.instructions.length ≤ state.pc)
      (stepped : Stepped module host function state next)
      (foundTarget : function.getBlock next.block = some target)
      (inside : next.block ∈ loop.blocks) (notHeader : next.block ≠ loop.header) :
      Iteration module host function loop allocLocation next
        (derivedAcross target state.block derived)

/-- No derived address leaves the iteration by the step that follows the state: not by an operand
of the instruction there, not by the word returned, and not in a register that is live in the next
iteration or behind the loop. -/
structure Contained (module : IrModule) (host : Host E) (function : IrFunction) (loop : Loop)
    (state : State E) (derived : Set IrId) : Prop where
  operands : ∀ {block inst}, function.getBlock state.block = some block →
    block.instructions[state.pc]? = some inst → ∀ reg ∈ leaving inst, reg ∉ derived
  returned : ∀ {block reg}, function.getBlock state.block = some block →
    block.instructions.length ≤ state.pc → block.terminator = .ret (some reg) → reg ∉ derived
  live : ∀ {block next target}, function.getBlock state.block = some block →
    block.instructions.length ≤ state.pc → Stepped module host function state next →
    function.getBlock next.block = some target →
    (next.block = loop.header ∨ next.block ∉ loop.blocks) →
    ∀ reg ∈ derivedAcross target state.block derived, ¬LiveAt function reg (pointOf next)

/-- A register of the loop that takes a tracked pointer on by another kind of instruction or by a
phi, or that is derived from such a register. -/
inductive Stray (function : IrFunction) (loop : Loop) (tracked : List IrId) : IrId → Prop where
  | otherKind {id : IrBlockId} {block : IrBasicBlock} {inst : IrInstruction} {src dest : IrId}
      (inside : id ∈ loop.blocks) (found : function.getBlock id = some block)
      (member : inst ∈ block.instructions) (writes : inst.writes = some dest)
      (carries : src ∈ carried inst) (isTracked : src ∈ tracked)
      (notDerived : derivedFrom tracked inst = none) : Stray function loop tracked dest
  | otherPhi {id source : IrBlockId} {block : IrBasicBlock} {phi : IrPhiNode} {src : IrId}
      (inside : id ∈ loop.blocks) (notHeader : id ≠ loop.header)
      (found : function.getBlock id = some block) (member : phi ∈ block.phiNodes)
      (sourceInside : source ∈ loop.blocks) (taken : phi.valueFrom source = some src)
      (isTracked : src ∈ tracked) : Stray function loop tracked phi.dest
  | kind {id : IrBlockId} {block : IrBasicBlock} {inst : IrInstruction} {src dest : IrId}
      (inside : id ∈ loop.blocks) (found : function.getBlock id = some block)
      (member : inst ∈ block.instructions) (writes : inst.writes = some dest)
      (carries : src ∈ carried inst) (stray : Stray function loop tracked src) :
      Stray function loop tracked dest
  | phi {id source : IrBlockId} {block : IrBasicBlock} {phi : IrPhiNode} {src : IrId}
      (inside : id ∈ loop.blocks) (notHeader : id ≠ loop.header)
      (found : function.getBlock id = some block) (member : phi ∈ block.phiNodes)
      (sourceInside : source ∈ loop.blocks) (taken : phi.valueFrom source = some src)
      (stray : Stray function loop tracked src) : Stray function loop tracked phi.dest

/-- What the analysis leaves unchecked lets no address out: stray registers anywhere, tracked
pointers in operands of kinds it does not look at, in returning blocks, on the way out of the loop
and, but for the phis of the listed back edges, on the way back. -/
structure Confined (function : IrFunction) (loop : Loop) (tracked : List IrId) : Prop where
  strayOperands : ∀ {id block inst reg}, id ∈ loop.blocks → function.getBlock id = some block →
    inst ∈ block.instructions → reg ∈ leaving inst → ¬Stray function loop tracked reg
  uncheckedOperands : ∀ {id block inst reg}, id ∈ loop.blocks →
    function.getBlock id = some block → inst ∈ block.instructions → reg ∈ leaving inst →
    reg ∉ checkedOperands inst → reg ∉ tracked
  returned : ∀ {id block reg}, id ∈ loop.blocks → function.getBlock id = some block →
    block.terminator = .ret (some reg) → reg ∉ tracked ∧ ¬Stray function loop tracked reg
  phis : ∀ {id block target targetBlock phi reg}, id ∈ loop.blocks →
    function.getBlock id = some block → target ∈ block.successors →
    (target = loop.header ∨ target ∉ loop.blocks) → function.getBlock target = some targetBlock →
    phi ∈ targetBlock.phiNodes → phi.valueFrom id = some reg → LiveAt function phi.dest (target, 0) →
    ¬Stray function loop tracked reg ∧
      (reg ∈ tracked → target = loop.header ∧ id ∈ loop.backEdgeSources)
  live : ∀ {id block target targetBlock reg}, id ∈ loop.blocks →
    function.getBlock id = some block → target ∈ block.successors →
    (target = loop.header ∨ target ∉ loop.blocks) → function.getBlock target = some targetBlock →
    reg ∉ targetBlock.phiNodes.map (·.dest) → LiveAt function reg (target, 0) →
    reg ∉ tracked ∧ ¬Stray function loop tracked reg

/-- An iteration stays in the loop, and what it derives is tracked or stray. -/
structure Followed (function : IrFunction) (loop : Loop) (tracked : List IrId) (state : State E)
    (derived : Set IrId) : Prop where
  inside : state.block ∈ loop.blocks
  derived : ∀ reg ∈ derived, reg ∈ tracked ∨ Stray function loop tracked reg

theorem Followed.executed {info : AllocEscapeInfo} {state next : State E} {derived : Set IrId}
    {block : IrBasicBlock} {inst : IrInstruction} (report : Reported function loop info)
    (followed : Followed function loop (buildTrackedPointers function loop info.allocDest) state
      derived)
    (found : function.getBlock state.block = some block)
    (here : block.instructions[state.pc]? = some inst)
    (stepped : Stepped module host function state next) :
    Followed function loop (buildTrackedPointers function loop info.allocDest) next
      (derivedAfter info.allocLocation (pointOf state) inst derived) := by
  have member := List.mem_of_getElem? here
  constructor
  · cases stepped with
    | executed => exact followed.inside
    | moved found' done =>
        cases found.symm.trans found'
        rw [List.getElem?_eq_none_iff.mpr done] at here
        cases here
  · intro reg holds
    simp only [derivedAfter, Set.mem_ofPred_eq] at holds
    by_cases writes : inst.writes = some reg
    · rw [if_pos writes] at holds
      rcases holds with atAlloc | ⟨src, carries, fromDerived⟩
      · obtain ⟨block', ty, count, found', here'⟩ := report.allocation
        have sameBlock : state.block = info.allocLocation.1 := congrArg Prod.fst atAlloc
        have samePc : state.pc = info.allocLocation.2 := congrArg Prod.snd atAlloc
        rw [← sameBlock, found] at found'
        cases found'
        rw [← samePc, here] at here'
        cases here'
        cases writes
        exact Or.inl (allocDest_tracked _)
      · rcases followed.derived src fromDerived with isTracked | stray
        · cases given : derivedFrom (buildTrackedPointers function loop info.allocDest) inst with
          | none => exact Or.inr (.otherKind followed.inside found member writes carries isTracked given)
          | some dest =>
              have same : dest = reg :=
                Option.some.inj ((derivedFrom_writes given).symm.trans writes)
              exact Or.inl (same ▸ tracked_closed _ followed.inside found member given)
        · exact Or.inr (.kind followed.inside found member writes carries stray)
    · rw [if_neg writes] at holds
      exact followed.derived reg holds

theorem Followed.moved {tracked : List IrId} {state next : State E} {derived : Set IrId}
    {target : IrBasicBlock} (followed : Followed function loop tracked state derived)
    (foundTarget : function.getBlock next.block = some target)
    (inside : next.block ∈ loop.blocks) (notHeader : next.block ≠ loop.header) :
    Followed function loop tracked next (derivedAcross target state.block derived) := by
  refine ⟨inside, ?_⟩
  rintro reg (⟨phi, member, rfl, value, fromDerived, taken⟩ | ⟨-, fromDerived⟩)
  · rcases followed.derived value fromDerived with isTracked | stray
    · exact Or.inr (.otherPhi inside notHeader foundTarget member followed.inside taken isTracked)
    · exact Or.inr (.phi inside notHeader foundTarget member followed.inside taken stray)
  · exact followed.derived reg fromDerived

theorem Iteration.followed {info : AllocEscapeInfo} (report : Reported function loop info)
    {state : State E} {derived : Set IrId}
    (iteration : Iteration module host function loop info.allocLocation state derived) :
    Followed function loop (buildTrackedPointers function loop info.allocDest) state derived := by
  induction iteration with
  | start atHeader =>
      refine ⟨?_, fun reg none => absurd none (Set.notMem_empty reg)⟩
      show (pointOf _).1 ∈ loop.blocks
      rw [atHeader]
      exact loop.headerInside
  | executed before found here stepped ih =>
      exact ih.executed report found here stepped
  | moved before found done stepped foundTarget inside notHeader ih =>
      exact ih.moved foundTarget inside notHeader

theorem Followed.contained {info : AllocEscapeInfo} (report : Reported function loop info)
    (confined : Confined function loop (buildTrackedPointers function loop info.allocDest))
    {state : State E} {derived : Set IrId}
    (followed : Followed function loop (buildTrackedPointers function loop info.allocDest) state
      derived) : Contained module host function loop state derived := by
  constructor
  · intro block inst found here reg leaves isDerived
    have member := List.mem_of_getElem? here
    rcases followed.derived reg isDerived with isTracked | stray
    · by_cases checked : reg ∈ checkedOperands inst
      · exact report.operands followed.inside found member checked isTracked
      · exact confined.uncheckedOperands followed.inside found member leaves checked isTracked
    · exact confined.strayOperands followed.inside found member leaves stray
  · intro block reg found _ returns isDerived
    have outside := confined.returned followed.inside found returns
    exact (followed.derived reg isDerived).elim outside.1 outside.2
  · intro block next target found done stepped foundTarget leaves reg isDerived live
    obtain ⟨successor, atStart⟩ : next.block ∈ block.successors ∧ pointOf next = (next.block, 0) := by
      cases stepped with
      | executed found' here _ =>
          cases found.symm.trans found'
          rw [List.getElem?_eq_none_iff.mpr done] at here
          cases here
      | moved found' _ chosen _ =>
          cases found.symm.trans found'
          exact ⟨chosenTarget_mem chosen, rfl⟩
    rw [atStart] at live
    rcases isDerived with ⟨phi, member, rfl, value, fromDerived, taken⟩ | ⟨notPhi, fromDerived⟩
    · have unchecked := confined.phis followed.inside found successor leaves foundTarget member taken
        live
      rcases followed.derived value fromDerived with isTracked | stray
      · obtain ⟨atHeader, backEdge⟩ := unchecked.2 isTracked
        rw [atHeader] at foundTarget
        exact report.phis foundTarget member taken backEdge isTracked
      · exact unchecked.1 stray
    · have unchecked := confined.live followed.inside found successor leaves foundTarget notPhi live
      exact (followed.derived reg fromDerived).elim unchecked.1 unchecked.2

end Iterations

/-- Allocate, do this with the register 2, and free, as long as the register 1 is not zero. -/
def allocating (instructions : List IrInstruction) : IrFunction where
  name := "allocating"
  signature :=
    { parameters := [], returnType := .void, callingConvention := .haxe, typeParams := [],
      usesSret := false }
  cfg :=
    { blocks := OrdMap.ofList [(0, { terminator := .branch 1 }),
        (1, { instructions := .const 1 (.bool true) :: .alloc 2 .i64 none ::
                instructions ++ [.free 2],
              terminator := .condBranch 1 1 2, predecessors := [0, 1] }),
        (2, { terminator := .ret none, predecessors := [1] })],
      entryBlock := 0, nextBlockId := 3 }
  locals := .empty
  registerTypes := OrdMap.ofList [(1, .bool), (2, .ptr .i64), (3, .ptr .i64)]
  externalLinkage := false
  nextRegId := 4
  typeParamTagFixups := []
  typeParamMetadataFixups := []

def selfLoop : Loop where
  blocks := [1]
  header := 1
  backEdgeSources := [1]
  headerInside := List.mem_singleton_self 1

/-- Merge the pointer with itself and store it to a global. -/
def leakingLoop : IrFunction := allocating [.select 3 1 2 2, .storeGlobal 0 3]

def storingLoop : IrFunction := allocating [.copy 3 2, .store 3 1 none]

def loopBlock (instructions : List IrInstruction) : IrBasicBlock where
  instructions := .const 1 (.bool true) :: .alloc 2 .i64 none :: instructions ++ [.free 2]
  terminator := .condBranch 1 1 2
  predecessors := [0, 1]

theorem storingLoop_block {id : IrBlockId} {block : IrBasicBlock}
    (found : storingLoop.getBlock id = some block) :
    (id = 0 ∧ block = { terminator := .branch 1 }) ∨
      (id = 1 ∧ block = loopBlock [.copy 3 2, .store 3 1 none]) ∨
      (id = 2 ∧ block = { terminator := .ret none, predecessors := [1] }) := by
  have member := getBlock_eq_some_iff.mp found
  have entries : storingLoop.cfg.blocks.entries = [(0, { terminator := .branch 1 }),
      (1, loopBlock [.copy 3 2, .store 3 1 none]),
      (2, { terminator := .ret none, predecessors := [1] })] := rfl
  rw [entries] at member
  simpa only [List.mem_cons, Prod.mk.injEq, List.not_mem_nil, or_false] using member

theorem storingLoop_noPhis {id : IrBlockId} {block : IrBasicBlock}
    (found : storingLoop.getBlock id = some block) : block.phiNodes = [] := by
  rcases storingLoop_block found with ⟨-, rfl⟩ | ⟨-, rfl⟩ | ⟨-, rfl⟩ <;> rfl

/-- The registers 2 and 3 are assigned at these indices, and live only behind them. -/
theorem storingLoop_live {reg : IrId} {point : Point} (live : LiveAt storingLoop reg point)
    (pointer : reg = 2 ∨ reg = 3) : point.1 = 1 ∧ reg ≤ point.2 := by
  induction live with
  | @read point member =>
      obtain ⟨id, pc⟩ := point
      unfold readsAt at member
      cases found : storingLoop.getBlock id with
      | none => simp [found] at member
      | some block =>
          simp only [found] at member
          rcases storingLoop_block found with ⟨-, rfl⟩ | ⟨rfl, rfl⟩ | ⟨-, rfl⟩
          · simp [IrTerminator.reads] at member
          · refine ⟨rfl, ?_⟩
            rcases pc with _ | _ | _ | pc
            all_goals rcases pointer with rfl | rfl
            all_goals simp_all [loopBlock, IrInstruction.uses]
          · simp [IrTerminator.reads] at member
  | phi along found member taken =>
      rw [storingLoop_noPhis found] at member
      cases member
  | later along kept live ih =>
      obtain ⟨inLoop, behind⟩ := ih
      cases along with
      | @within id block pc found inside =>
          obtain rfl : id = 1 := inLoop
          refine ⟨rfl, ?_⟩
          by_contra before
          have here : reg = pc + 1 := Nat.le_antisymm behind (Nat.lt_of_not_le before)
          have inBlock : storingLoop.getBlock 1 = some (loopBlock [.copy 3 2, .store 3 1 none]) := rfl
          rcases pointer with rfl | rfl
          · obtain rfl : pc = 1 := (Nat.succ.inj here).symm
            exact kept (.instruction inBlock rfl rfl)
          · obtain rfl : pc = 2 := (Nat.succ.inj here).symm
            exact kept (.instruction inBlock rfl rfl)
      | across found done successor => rcases pointer with rfl | rfl <;> cases behind

theorem storingLoop_tracked : buildTrackedPointers storingLoop selfLoop 2 = [3, 2] := by decide

theorem storingLoop_noStray (reg : IrId) : ¬Stray storingLoop selfLoop [3, 2] reg := by
  intro stray
  induction stray with
  | otherKind inside found member writes carries isTracked notDerived =>
      rcases storingLoop_block found with ⟨-, rfl⟩ | ⟨-, rfl⟩ | ⟨-, rfl⟩
      · cases member
      · simp only [loopBlock, List.cons_append, List.nil_append, List.mem_cons, List.not_mem_nil,
          or_false] at member
        rcases member with rfl | rfl | rfl | rfl | rfl
        · cases carries
        · cases carries
        · cases notDerived
        · cases carries
        · cases carries
      · cases member
  | otherPhi inside notHeader => exact notHeader (List.mem_singleton.mp inside)
  | kind _ _ _ _ _ _ ih => exact ih
  | phi inside notHeader => exact absurd (List.mem_singleton.mp inside) notHeader

theorem storingLoop_confined : Confined storingLoop selfLoop [3, 2] where
  strayOperands _ _ _ _ := storingLoop_noStray _
  uncheckedOperands := by
    intro id block inst reg inside found member leaves unchecked
    rcases storingLoop_block found with ⟨-, rfl⟩ | ⟨-, rfl⟩ | ⟨-, rfl⟩
    · cases member
    · simp only [loopBlock, List.cons_append, List.nil_append, List.mem_cons, List.not_mem_nil,
        or_false] at member
      rcases member with rfl | rfl | rfl | rfl | rfl
      · cases leaves
      · cases leaves
      · cases leaves
      · exact absurd leaves unchecked
      · cases leaves
    · cases member
  returned := by
    intro id block reg inside found returns
    rcases storingLoop_block found with ⟨-, rfl⟩ | ⟨-, rfl⟩ | ⟨-, rfl⟩ <;> cases returns
  phis := by
    intro id block target targetBlock phi reg _ _ _ _ found member
    rw [storingLoop_noPhis found] at member
    cases member
  live := by
    intro id block target targetBlock reg _ _ _ _ found _ live
    refine ⟨fun tracked => ?_, storingLoop_noStray reg⟩
    have pointer : reg = 2 ∨ reg = 3 := by simpa [or_comm] using tracked
    have behind := (storingLoop_live live pointer).2
    rcases pointer with rfl | rfl <;> cases behind

end Rayzor.Passes.EscapeAnalysis
