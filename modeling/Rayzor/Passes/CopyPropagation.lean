import Rayzor.Ssa.Checked
import Rayzor.Ssa.Equations
import Rayzor.Ssa.Reads

/-!
Contract: copy propagation against the words that a function reads.

Owns: the copies that `CopyPropagationPass` collects, the root of a chain, the
rewriting, and which copies have to be in force where a renamed operand is
read.

Does not own: registers that are never copied, and the types that registers
are declared with.
-/

namespace Rayzor.Passes.CopyPropagation

open Ir Interp Library Library.Graph Ssa

/-! ### `CopyPropagationPass` -/

def copyOf : IrInstruction → Option (IrId × IrId)
  | .copy dest src => some (dest, src)
  | _ => none

/-- The copies of a function, as destination and source. -/
def copyList (function : IrFunction) : List (IrId × IrId) :=
  (function.cfg.blocks.values.flatMap (·.instructions)).filterMap copyOf

structure Found where
  copies : OrdMap IrId IrId := .empty
  multiDef : List IrId := []

/-- The last copy to a register stands in the map. -/
def addCopy (found : Found) (copy : IrId × IrId) : Found where
  copies := found.copies.insert copy.1 copy.2
  multiDef :=
    if found.copies.contains copy.1 then copy.1 :: found.multiDef else found.multiDef

def findCopies (function : IrFunction) : Found := (copyList function).foldl addCopy {}

/-- The copies to registers that have no other copy. -/
def singleCopies (found : Found) : OrdMap IrId IrId :=
  found.multiDef.foldl (fun copies id => copies.erase id) found.copies

/-- Follow the chain, at most once for each copy and not back to its start. -/
def rootFrom (copies : OrdMap IrId IrId) (dest : IrId) : Nat → IrId → IrId
  | 0, root => root
  | fuel + 1, root =>
      match copies.get? root with
      | some next => if next ≠ dest then rootFrom copies dest fuel next else root
      | none => root

def copyRoots (copies : OrdMap IrId IrId) : OrdMap IrId IrId :=
  copies.mapValues fun dest src => rootFrom copies dest copies.entries.length src

/-- Phis are left as they are. -/
def propagateBlock (roots : OrdMap IrId IrId) (block : IrBasicBlock) : IrBasicBlock :=
  { block with
    instructions := block.instructions.map (·.replaceUses roots)
    terminator := block.terminator.replaceUses roots }

def propagate (function : IrFunction) : IrFunction :=
  let roots := copyRoots (singleCopies (findCopies function))
  if roots.entries = [] then function
  else { function with
    cfg := { function.cfg with
      blocks := function.cfg.blocks.mapValues fun _ => propagateBlock roots } }

def runOnModule (module : IrModule) : IrModule :=
  { module with functions := module.functions.mapValues fun _ => propagate }

/-! ### What stands at a point -/

def renamedAt (function : IrFunction) (point : Point) : List IrId :=
  match function.getBlock point.1 with
  | none => []
  | some block =>
      match block.instructions[point.2]? with
      | some inst => if inst.operandsKept then [] else inst.uses
      | none => block.terminator.reads

theorem replaceUses_of_none {roots : OrdMap IrId IrId} (none : roots.entries = [])
    (block : IrBasicBlock) : propagateBlock roots block = block := by
  have same : (fun id => (roots.get? id).getD id) = fun id : IrId => id := by
    funext id
    simp [OrdMap.get?, none, OrdMap.lookup]
  simp [propagateBlock, IrInstruction.replaceUses, IrTerminator.replaceUses, same]

/-- The map of the registers to rename. -/
def rootsOf (function : IrFunction) : OrdMap IrId IrId :=
  copyRoots (singleCopies (findCopies function))

theorem getBlock_propagate (function : IrFunction) (id : IrBlockId) :
    (propagate function).getBlock id =
      (function.getBlock id).map (propagateBlock (rootsOf function)) := by
  unfold propagate
  by_cases isEmpty : (copyRoots (singleCopies (findCopies function))).entries = []
  · simp only [isEmpty, if_true]
    have same : propagateBlock (rootsOf function) = fun block => block :=
      funext (replaceUses_of_none isEmpty)
    rw [same, Option.map_id']
  · simp only [isEmpty, if_false]
    exact OrdMap.get?_mapValues _ _ id

theorem readsAt_propagate {function : IrFunction} {point : Point} {regs : Regs}
    (agree : ∀ reg ∈ renamedAt function point,
      regs (((rootsOf function).get? reg).getD reg) = regs reg) :
    (readsAt (propagate function) point).map regs = (readsAt function point).map regs := by
  unfold readsAt
  unfold renamedAt at agree
  rw [getBlock_propagate]
  cases found : function.getBlock point.1 with
  | none => rfl
  | some block =>
      simp only [found] at agree
      simp only [Option.map_some, propagateBlock, List.getElem?_map]
      cases here : block.instructions[point.2]? with
      | some inst =>
          simp only [here] at agree
          simp only [Option.map_some]
          cases kept : inst.operandsKept with
          | true => rw [IrInstruction.replaceUses, IrInstruction.uses_renameUses_of_kept _ _ kept]
          | false =>
              rw [kept] at agree
              rw [IrInstruction.replaceUses, IrInstruction.uses_renameUses _ _ kept, List.map_map]
              exact List.map_congr_left agree
      | none =>
          simp only [here] at agree
          simp only [Option.map_none, IrTerminator.replaceUses, IrTerminator.reads_renameUses,
            List.map_map]
          exact List.map_congr_left agree

/-! ### Chains -/

section Chains

variable {copies : OrdMap IrId IrId} {dest reg : IrId}

def linksFrom (copies : OrdMap IrId IrId) (dest : IrId) : Nat → IrId → List (IrId × IrId)
  | 0, _ => []
  | fuel + 1, root =>
      match copies.get? root with
      | some next => if next ≠ dest then (root, next) :: linksFrom copies dest fuel next else []
      | none => []

/-- The copies between a register and what it is renamed to. -/
def linksOf (copies : OrdMap IrId IrId) (reg : IrId) : List (IrId × IrId) :=
  match copies.get? reg with
  | some src => (reg, src) :: linksFrom copies reg copies.entries.length src
  | none => []

theorem rootFrom_agrees {regs : Regs} {fuel : Nat} {root : IrId}
    (agree : ∀ link ∈ linksFrom copies dest fuel root, regs link.1 = regs link.2) :
    regs (rootFrom copies dest fuel root) = regs root := by
  induction fuel generalizing root with
  | zero => rfl
  | succ fuel ih =>
      unfold linksFrom at agree
      unfold rootFrom
      cases next : copies.get? root with
      | none => rfl
      | some src =>
          simp only [next] at agree ⊢
          by_cases back : src = dest
          · simp [back]
          · simp only [ne_eq, back, not_false_eq_true, if_true, List.forall_mem_cons] at agree ⊢
            rw [ih agree.2, agree.1]

theorem root_agrees {regs : Regs}
    (agree : ∀ link ∈ linksOf copies reg, regs link.1 = regs link.2) :
    regs (((copyRoots copies).get? reg).getD reg) = regs reg := by
  unfold linksOf at agree
  rw [copyRoots, OrdMap.get?_mapValues]
  cases found : copies.get? reg with
  | none => rfl
  | some src =>
      simp only [found, List.forall_mem_cons] at agree
      simp only [Option.map_some, Option.getD_some]
      rw [rootFrom_agrees agree.2, agree.1]

theorem linksFrom_get? {fuel : Nat} {root : IrId} {link : IrId × IrId}
    (member : link ∈ linksFrom copies dest fuel root) : copies.get? link.1 = some link.2 := by
  induction fuel generalizing root with
  | zero => cases member
  | succ fuel ih =>
      unfold linksFrom at member
      cases next : copies.get? root with
      | none => simp [next] at member
      | some src =>
          simp only [next] at member
          by_cases back : src = dest
          · simp [back] at member
          · simp only [ne_eq, back, not_false_eq_true, if_true, List.mem_cons] at member
            rcases member with rfl | later
            · exact next
            · exact ih later

/-- What holds of a register and passes from the destination of each copy to its source holds of
the destinations of all the copies followed. -/
theorem linksOf_induction (Holds : IrId → Prop)
    (passes : ∀ {dest src}, copies.get? dest = some src → Holds dest → Holds src)
    (start : Holds reg) {link : IrId × IrId} (member : link ∈ linksOf copies reg) :
    copies.get? link.1 = some link.2 ∧ Holds link.1 := by
  have along : ∀ {fuel : Nat} {root : IrId}, Holds root →
      ∀ link ∈ linksFrom copies reg fuel root, Holds link.1 := by
    intro fuel
    induction fuel with
    | zero => simp [linksFrom]
    | succ fuel ih =>
        intro root holds link member
        unfold linksFrom at member
        cases next : copies.get? root with
        | none => simp [next] at member
        | some src =>
            simp only [next] at member
            by_cases back : src = reg
            · simp [back] at member
            · simp only [ne_eq, back, not_false_eq_true, if_true, List.mem_cons] at member
              rcases member with rfl | later
              · exact holds
              · exact ih (passes next holds) link later
  unfold linksOf at member
  cases found : copies.get? reg with
  | none => simp [found] at member
  | some src =>
      simp only [found, List.mem_cons] at member
      rcases member with rfl | later
      · exact ⟨found, start⟩
      · exact ⟨linksFrom_get? later, along (passes found start) link later⟩

end Chains

/-! ### Where the copies come from -/

theorem get?_addCopy {found : Found} {copy : IrId × IrId} {dest src : IrId}
    (kept : (addCopy found copy).copies.get? dest = some src) :
    copy = (dest, src) ∨ found.copies.get? dest = some src := by
  simp only [addCopy, OrdMap.get?_insert] at kept
  by_cases same : dest = copy.1
  · rw [if_pos same] at kept
    cases kept
    exact Or.inl (by rw [same])
  · rw [if_neg same] at kept
    exact Or.inr kept

theorem get?_foldl_addCopy (copies : List (IrId × IrId)) {found : Found} {dest src : IrId}
    (kept : (copies.foldl addCopy found).copies.get? dest = some src) :
    (dest, src) ∈ copies ∨ found.copies.get? dest = some src := by
  induction copies generalizing found with
  | nil => exact Or.inr kept
  | cons copy rest ih =>
      rcases ih kept with later | before
      · exact Or.inl (List.mem_cons_of_mem _ later)
      · rcases get?_addCopy before with same | earlier
        · exact Or.inl (same ▸ List.mem_cons_self)
        · exact Or.inr earlier

theorem get?_erased {ids : List IrId} {copies : OrdMap IrId IrId} {dest src : IrId}
    (kept : (ids.foldl (fun copies id => copies.erase id) copies).get? dest = some src) :
    copies.get? dest = some src := by
  induction ids generalizing copies with
  | nil => exact kept
  | cons id rest ih =>
      have before := ih kept
      rw [OrdMap.get?_erase] at before
      by_cases same : dest = id
      · simp [same] at before
      · simpa [same] using before

theorem copy_of_single {function : IrFunction} {dest src : IrId}
    (single : (singleCopies (findCopies function)).get? dest = some src) :
    ∃ (id : IrBlockId) (block : IrBasicBlock) (pc : Nat), function.getBlock id = some block ∧
      block.instructions[pc]? = some (.copy dest src) := by
  have found := get?_foldl_addCopy _ (get?_erased single)
  rcases found with listed | initial
  · obtain ⟨inst, member, isCopy⟩ := List.mem_filterMap.mp listed
    obtain ⟨block, inFunction, inBlock⟩ := List.mem_flatMap.mp member
    obtain ⟨id, found⟩ := (OrdMap.mem_values_iff _ block).mp inFunction
    obtain ⟨pc, here⟩ := List.mem_iff_getElem?.mp inBlock
    cases inst with
    | copy dest' src' =>
        cases isCopy
        exact ⟨id, block, pc, found, here⟩
    | _ => cases isCopy
  · exact absurd initial (by simp [OrdMap.get?, OrdMap.empty, OrdMap.lookup])

/-! ### Copies in force -/

section Runs

variable {E : Type} {module : IrModule} {host : Host E} {function : IrFunction} {frame : Frame}
  {world : World E}

/-- The copy has been run on the way to the state, and neither of its registers has been assigned
since. -/
inductive InForce (module : IrModule) (host : Host E) (function : IrFunction) (frame : Frame)
    (world : World E) (dest src : IrId) : State E → Prop where
  | made {state next : State E} {block : IrBasicBlock}
      (runs : Runs module host function frame world state)
      (found : function.getBlock state.block = some block)
      (here : block.instructions[state.pc]? = some (.copy dest src))
      (stepped : Stepped module host function state next) :
      InForce module host function frame world dest src next
  | kept {state next : State E}
      (before : InForce module host function frame world dest src state)
      (stepped : Stepped module host function state next)
      (destKept : ¬AssignedAt function dest (pointOf next))
      (srcKept : ¬AssignedAt function src (pointOf next)) :
      InForce module host function frame world dest src next

/-- Every copy between an operand that is renamed and its root is in force. -/
def ChainsInForce (module : IrModule) (host : Host E) (function : IrFunction) (frame : Frame)
    (world : World E) (state : State E) : Prop :=
  ∀ reg ∈ renamedAt function (pointOf state),
    ∀ link ∈ linksOf (singleCopies (findCopies function)) reg,
      InForce module host function frame world link.1 link.2 state

/-- What the rewritten function reads at the place of a state, by the instruction there or the
terminator, is what the function reads there. -/
def ReadsKept (function : IrFunction) (state : State E) : Prop :=
  (readsAt (propagate function) (pointOf state)).map state.frame.regs =
    (readsAt function (pointOf state)).map state.frame.regs

theorem regs_of_copy {state next : State E} {block : IrBasicBlock} {dest src : IrId}
    (found : function.getBlock state.block = some block)
    (here : block.instructions[state.pc]? = some (.copy dest src))
    (stepped : Stepped module host function state next) :
    next.frame.regs dest = next.frame.regs src := by
  cases stepped with
  | executed found' here' ran =>
      cases found.symm.trans found'
      cases here.symm.trans here'
      obtain ⟨result, evaluated, rfl⟩ := execute_eq_ok.mp ran
      cases evaluated
      rw [regs_after_some _ _ rfl, Regs.set_same]
      by_cases same : src = dest
      · rw [same, Regs.set_same]
      · rw [Regs.set_of_ne _ _ same]
  | moved found' done =>
      cases found.symm.trans found'
      rw [List.getElem?_eq_none_iff.mpr done] at here
      cases here

theorem InForce.agrees {dest src : IrId} {state : State E}
    (force : InForce module host function frame world dest src state) :
    state.frame.regs dest = state.frame.regs src := by
  induction force with
  | made runs found here stepped => exact regs_of_copy found here stepped
  | kept before stepped destKept srcKept ih =>
      rw [regs_of_notAssigned stepped destKept, regs_of_notAssigned stepped srcKept,
        ih]

/-- Where the copies are in force, the words read stay the same. -/
theorem ChainsInForce.readsKept {state : State E}
    (force : ChainsInForce module host function frame world state) : ReadsKept function state := by
  apply readsAt_propagate
  intro reg renamed
  exact root_agrees fun link member => (force reg renamed link member).agrees

/-! ### Single assignment -/

theorem available_of_renamed (ssa : SsaForm function) {reg : IrId} {point : Point}
    (renamed : reg ∈ renamedAt function point)
    (reachable : ∀ {block}, function.getBlock point.1 = some block →
      point.2 ≤ block.instructions.length) : Available function reg point := by
  obtain ⟨id, pc⟩ := point
  unfold renamedAt at renamed
  cases found : function.getBlock id with
  | none => simp [found] at renamed
  | some block =>
      simp only [found] at renamed
      cases here : block.instructions[pc]? with
      | some inst =>
          simp only [here] at renamed
          cases kept : inst.operandsKept with
          | true => simp [kept] at renamed
          | false =>
              simp only [kept, Bool.false_eq_true, if_false] at renamed
              exact ssa.operands found here reg renamed
      | none =>
          simp only [here] at renamed
          have atEnd : pc = block.instructions.length :=
            Nat.le_antisymm (reachable found) (List.getElem?_eq_none_iff.mp here)
          rw [atEnd]
          exact ssa.terminator found reg renamed

theorem available_source (ssa : SsaForm function) {dest src : IrId} {point : Point}
    (single : (singleCopies (findCopies function)).get? dest = some src)
    (available : Available function dest point) : Available function src point := by
  obtain ⟨id, block, pc, found, here⟩ := copy_of_single single
  have defines : DefinesAt function dest (id, pc + 1) := .instruction found here rfl
  have read := ssa.operands found here src (List.mem_singleton_self src)
  exact (available_after read).of_dominated (ssa.dominates defines available)

theorem inForce_of_available (ssa : SsaForm function) {dest src : IrId}
    (single : (singleCopies (findCopies function)).get? dest = some src) {state : State E}
    (runs : Runs module host function frame world state)
    (available : Available function dest (pointOf state)) :
    InForce module host function frame world dest src state := by
  obtain ⟨id, block, pc, found, here⟩ := copy_of_single single
  have defines : DefinesAt function dest (id, pc + 1) := .instruction found here rfl
  refine Runs.induction (fun state => Available function dest (pointOf state) →
    InForce module host function frame world dest src state) runs ?_ ?_ available
  · intro available
    have atEntry := ssa.dominates defines available _ .start
    rw [List.mem_singleton] at atEntry
    exact absurd atEntry (inner_of_succ id pc)
  · intro state next runs ih stepped available
    by_cases arrived : pointOf next = (id, pc + 1)
    · obtain ⟨before, -⟩ := executed_of_point stepped arrived
      cases before
      exact .made runs found here stepped
    · have elsewhere : ¬DefinesAt function dest (pointOf next) := fun again =>
        arrived (ssa.single again defines)
      have dominates := ssa.dominates defines available
      have read := available_after (ssa.operands found here src (List.mem_singleton_self src))
      have reachable := (runs.next stepped).reachable
      refine .kept (ih (available.before (edge_of_stepped stepped) elsewhere))
        stepped (fun assigned => elsewhere assigned.defines) fun assigned => arrived ?_
      exact (Graph.Dominates.antisymm reachable dominates
        (ssa.dominates assigned.defines read)).symm

theorem chainsInForce_of_ssa (ssa : SsaForm function) {state : State E}
    (runs : Runs module host function frame world state) :
    ChainsInForce module host function frame world state := by
  intro reg renamed link member
  have available := available_of_renamed ssa renamed (pc_le_length runs)
  have along := linksOf_induction (fun reg => Available function reg (pointOf state))
    (available_source ssa) available member
  exact inForce_of_available ssa along.1 runs along.2

end Runs

/-! ### A chain through a register that is copied to twice -/

/-- Copy the register 0 to the register 1, in a function of these instructions. -/
def copying (instructions : List IrInstruction) : IrFunction where
  name := "copying"
  signature :=
    { parameters := [], returnType := .i32, callingConvention := .haxe, typeParams := [],
      usesSret := false }
  cfg :=
    { blocks := OrdMap.ofList [(0, { instructions, terminator := .ret (some 1) })],
      entryBlock := 0, nextBlockId := 1 }
  locals := .empty
  registerTypes := OrdMap.ofList [(0, .i32), (1, .i32), (2, .i32), (3, .i32)]
  externalLinkage := false
  nextRegId := 4
  typeParamTagFixups := []
  typeParamMetadataFixups := []

/-- `1` goes by the registers 2 and 0 to the register 1. -/
def chained : IrFunction :=
  copying [.const 2 (.i32 1), .copy 0 2, .copy 1 0]

/-- The register 0 is given another word once it has been copied. -/
def leaking : IrFunction :=
  copying [.const 2 (.i32 1), .const 3 (.i32 2), .copy 0 2, .copy 1 0, .copy 0 3]

theorem chained_ssaForm : SsaForm chained := by
  have checked : Checked chained fun _ => [] := of_decide_eq_true rfl
  exact checked.ssaForm

end Rayzor.Passes.CopyPropagation
