import Rayzor.Passes.ConstantFolding
import Rayzor.Ssa.Checked
import Rayzor.Ssa.Equations
import Rayzor.Ssa.Trimmed

/-!
Contract: whole runs before and after constant folding.

Owns: that a register whose constant the pass knows holds it wherever it is
available, and that a call behaves as it did once the constants are put in place.
-/

namespace Rayzor.Passes.ConstantFolding

open Ir Interp Library Ssa

variable {E : Type} {module : IrModule} {host : Host E} {function : IrFunction}
  {constants : Constants}

/-! ### Known constants -/

/-- Registers hold their constants wherever they are available. -/
def Known (module : IrModule) (host : Host E) (function : IrFunction) (constants : Constants) :
    Prop :=
  ∀ reg value word, constants.get? reg = some value → constantWord value = some word →
    ∀ {frame world} {state : State E}, Runs module host function frame world state →
      Available function reg (pointOf state) → state.frame.regs reg = word

/-- A constant that is collected stands in the function. -/
theorem const_of_collected {reg : IrId} {value : IrValue}
    (collected : (collectConstants function).get? reg = some value) :
    ∃ (id : IrBlockId) (block : IrBasicBlock) (pc : Nat), function.getBlock id = some block ∧
      block.instructions[pc]? = some (.const reg value) := by
  have found : ∀ collect : Constants → IrInstruction → Constants,
      (∀ constants inst, (collect constants inst).get? reg = some value →
        inst = .const reg value ∨ constants.get? reg = some value) →
      ∀ (instructions : List IrInstruction) (constants : Constants),
        (instructions.foldl collect constants).get? reg = some value →
        IrInstruction.const reg value ∈ instructions ∨ constants.get? reg = some value := by
    intro collect collects instructions
    induction instructions with
    | nil => exact fun _ kept => Or.inr kept
    | cons inst rest ih =>
        intro constants kept
        rcases ih _ kept with later | before
        · exact Or.inl (List.mem_cons_of_mem _ later)
        · rcases collects constants inst before with rfl | earlier
          · exact Or.inl List.mem_cons_self
          · exact Or.inr earlier
  have stands : IrInstruction.const reg value ∈ instructionsInOrder function ∨
      (OrdMap.empty : Constants).get? reg = some value := by
    refine found _ (fun constants inst kept => ?_) _ _ collected
    cases inst
    case const dest other =>
      simp only [OrdMap.get?_insert] at kept
      split_ifs at kept with same
      · cases kept
        exact Or.inl (same ▸ rfl)
      · exact Or.inr kept
    all_goals exact Or.inr kept
  obtain ⟨block, inFunction, inBlock⟩ := List.mem_flatMap.mp (stands.resolve_right (by simp))
  obtain ⟨id, isBlock⟩ := (OrdMap.mem_values_iff _ block).mp inFunction
  obtain ⟨pc, here⟩ := List.mem_iff_getElem?.mp inBlock
  exact ⟨id, block, pc, isBlock, here⟩

theorem known_collected (ssa : SsaForm function) :
    Known module host function (collectConstants function) := by
  intro reg value word collected isWord _ _ state runs available
  obtain ⟨id, block, pc, found, here⟩ := const_of_collected collected
  have holds := ssa.equation found here rfl (fun _ => by simp [pureValue, isWord]) runs available
  simp only [pureValue, isWord, Option.map_some, Option.some.injEq, Except.ok.injEq] at holds
  exact holds.symm

/-! ### What a folded instruction computes -/

/-- The instruction computes this word each time it runs, and nothing else. -/
structure Computes (module : IrModule) (host : Host E) (function : IrFunction)
    (inst : IrInstruction) (dest : IrId) (word : Word) : Prop where
  writes : inst.writes = some dest
  after : ∀ (frame : Frame) (word : Word),
    frame.after inst (some word) = { frame with regs := frame.regs.set dest word }
  noLoad : ∀ aggregate, loadOf aggregate inst = none
  isPure : ∀ get, (pureValue (declOf function inst) get inst).isSome
  computes : ∀ {frame world} {state : State E}, Runs module host function frame world state →
    (∀ reg ∈ inst.uses, Available function reg (pointOf state)) →
    pureValue (declOf function inst) state.frame.regs inst = some (.ok word)

theorem words_of_foldBinaryOp {op : BinaryOp} {left right value : IrValue}
    (folds : foldBinaryOp op left right = .ok (some value)) :
    (constantWord left).isSome ∧ (constantWord right).isSome := by
  unfold foldBinaryOp at folds
  split at folds
  · exact ⟨rfl, rfl⟩
  · exact ⟨rfl, rfl⟩
  · cases folds

theorem words_of_foldComparison {op : CompareOp} {left right value : IrValue}
    (folds : foldComparison op left right = some value) :
    (constantWord left).isSome ∧ (constantWord right).isSome := by
  unfold foldComparison at folds
  split at folds
  · exact ⟨rfl, rfl⟩
  · exact ⟨rfl, rfl⟩
  · exact ⟨rfl, rfl⟩
  · cases folds

theorem Known.constantOf (known : Known module host function constants) {reg : IrId}
    {value : IrValue} (isKnown : constants.get? reg = some value)
    (hasWord : (constantWord value).isSome) {frame : Frame} {world : World E} {state : State E}
    (runs : Runs module host function frame world state)
    (available : Available function reg (pointOf state)) :
    state.frame.regs reg = constantOf constants reg := by
  obtain ⟨word, isWord⟩ := Option.isSome_iff_exists.mp hasWord
  rw [known reg value word isKnown isWord runs available]
  simp [ConstantFolding.constantOf, isKnown, isWord]

theorem computes_of_folded (known : Known module host function constants) {inst : IrInstruction}
    {dest : IrId} {value : IrValue} (faithful : FoldsFaithfully function constants inst)
    (folds : foldInstruction constants inst = .ok (some (dest, value))) :
    ∃ word, constantWord value = some word ∧ Computes module host function inst dest word := by
  obtain ⟨folded, isFolded, agrees⟩ := faithful
  cases folds.symm.trans isFolded
  obtain ⟨word, isWord, evaluated⟩ := agrees dest value rfl
  refine ⟨word, isWord, ?_⟩
  cases inst
  case binOp target op left right =>
    simp only [foldInstruction] at folds
    split at folds
    · rename_i leftValue rightValue leftKnown rightKnown
      obtain ⟨result, computed, same⟩ := bind_eq_ok.mp folds
      cases result with
      | none => cases same
      | some result =>
          cases same
          obtain ⟨leftWord, rightWord⟩ := words_of_foldBinaryOp computed
          refine ⟨rfl, fun _ _ => rfl, fun _ => rfl, fun _ => rfl, fun runs available => ?_⟩
          rw [← evaluated, evalOriginal,
            ← known.constantOf leftKnown leftWord runs (available left (by simp [IrInstruction.uses])),
            ← known.constantOf rightKnown rightWord runs
              (available right (by simp [IrInstruction.uses]))]
          simp only [pureValue, declOf, resolved, evalBinop]
          cases binopType function dest left right <;> rfl
    · cases folds
  case cmp target op left right =>
    simp only [foldInstruction] at folds
    split at folds
    · rename_i leftValue rightValue leftKnown rightKnown
      obtain ⟨result, computed, same⟩ := Option.map_eq_some_iff.mp (Except.ok.inj folds)
      cases same
      obtain ⟨leftWord, rightWord⟩ := words_of_foldComparison computed
      refine ⟨rfl, fun _ _ => rfl, fun _ => rfl, fun _ => rfl, fun runs available => ?_⟩
      rw [← evaluated, evalOriginal,
        ← known.constantOf leftKnown leftWord runs (available left (by simp [IrInstruction.uses])),
        ← known.constantOf rightKnown rightWord runs
          (available right (by simp [IrInstruction.uses]))]
      simp only [pureValue, declOf, resolved, evalCmp]
      cases cmpType function left <;> rfl
    · cases folds
  all_goals cases folds

theorem Known.insert (ssa : SsaForm function) (known : Known module host function constants)
    {id : IrBlockId} {block : IrBasicBlock} {pc : Nat} {inst : IrInstruction} {dest : IrId}
    {value : IrValue} {word : Word} (found : function.getBlock id = some block)
    (here : block.instructions[pc]? = some inst) (isWord : constantWord value = some word)
    (computes : Computes module host function inst dest word) :
    Known module host function (constants.insert dest value) := by
  intro reg other otherWord isKnown isOther _ _ state runs available
  rw [OrdMap.get?_insert] at isKnown
  split_ifs at isKnown with same
  · cases isKnown
    cases isWord.symm.trans isOther
    rw [same] at available ⊢
    have holds := ssa.equation found here computes.writes computes.isPure runs available
    have dominates := ssa.dominates (.instruction found here computes.writes) available
    rw [computes.computes runs fun reg used =>
      (available_after (ssa.operands found here reg used)).of_dominated dominates] at holds
    exact (Except.ok.inj (Option.some.inj holds)).symm
  · exact known reg other otherWord isKnown isOther runs available

/-! ### The folded function -/

def PutFor (module : IrModule) (host : Host E) (function : IrFunction)
    (inst inst' : IrInstruction) : Prop :=
  inst' = inst ∨ ∃ dest value word, inst' = .const dest value ∧
    constantWord value = some word ∧ Computes module host function inst dest word

theorem foldInstructions_spec (ssa : SsaForm function) {instructions : List IrInstruction}
    (standing : ∀ inst ∈ instructions, ∃ (id : IrBlockId) (block : IrBasicBlock) (pc : Nat),
      function.getBlock id = some block ∧ block.instructions[pc]? = some inst)
    (faithful : AlongPass (FoldsFaithfully function) constants instructions)
    (known : Known module host function constants) :
    ∃ folded, foldInstructions constants instructions =
        .ok (instructions.foldl afterInstruction constants, folded) ∧
      List.Forall₂ (PutFor module host function) instructions folded ∧
      Known module host function (instructions.foldl afterInstruction constants) := by
  induction instructions generalizing constants with
  | nil => exact ⟨[], rfl, .nil, known⟩
  | cons inst rest ih =>
      obtain ⟨here, restFaithful⟩ := faithful
      have later := fun knownAfter =>
        ih (fun other member => standing other (List.mem_cons_of_mem _ member)) restFaithful knownAfter
      have ⟨result, stepped, _⟩ := here
      cases result with
      | none =>
          have same : afterInstruction constants inst = constants := by
            simp [afterInstruction, stepped]
          rw [same] at later
          obtain ⟨folded, restFolded, put, knownAfter⟩ := later known
          refine ⟨inst :: folded, ?_, .cons (Or.inl rfl) put, ?_⟩
          · simp [foldInstructions, stepped, restFolded, same]
          · rw [List.foldl_cons, same]
            exact knownAfter
      | some entry =>
          obtain ⟨dest, value⟩ := entry
          have inserted : afterInstruction constants inst = constants.insert dest value := by
            simp [afterInstruction, stepped]
          obtain ⟨word, isWord, computes⟩ := computes_of_folded known here stepped
          obtain ⟨id, block, pc, found, isHere⟩ := standing inst List.mem_cons_self
          rw [inserted] at later
          obtain ⟨folded, restFolded, put, knownAfter⟩ :=
            later (known.insert ssa found isHere isWord computes)
          refine ⟨.const dest value :: folded, ?_,
            .cons (Or.inr ⟨dest, value, word, rfl, isWord, computes⟩) put, ?_⟩
          · simp [foldInstructions, stepped, restFolded, inserted]
          · rw [List.foldl_cons, inserted]
            exact knownAfter

/-- A block with some instructions replaced in place. -/
def BlockPutFor (module : IrModule) (host : Host E) (function : IrFunction)
    (block block' : IrBasicBlock) : Prop :=
  ∃ instructions, block' = { block with instructions } ∧
    List.Forall₂ (PutFor module host function) block.instructions instructions

theorem foldBlocks_spec (ssa : SsaForm function) {blocks : List (IrBlockId × IrBasicBlock)}
    (standing : ∀ entry ∈ blocks, function.getBlock entry.1 = some entry.2)
    (faithful : AlongPass (FoldsFaithfully function) constants
      ((blocks.map Prod.snd).flatMap (·.instructions)))
    (known : Known module host function constants) :
    ∃ folded, foldBlocks constants blocks = .ok folded ∧
      List.Forall₂ (fun entry entry' => entry'.1 = entry.1 ∧
        BlockPutFor module host function entry.2 entry'.2) blocks folded := by
  induction blocks generalizing constants with
  | nil => exact ⟨[], rfl, .nil⟩
  | cons entry rest ih =>
      simp only [List.map_cons, List.flatMap_cons, AlongPass.append] at faithful
      obtain ⟨instructions, blockFolded, put, knownAfter⟩ := foldInstructions_spec ssa
        (fun inst member => by
          obtain ⟨pc, here⟩ := List.mem_iff_getElem?.mp member
          exact ⟨entry.1, entry.2, pc, standing entry List.mem_cons_self, here⟩) faithful.1 known
      obtain ⟨folded, restFolded, others⟩ := ih
        (fun other member => standing other (List.mem_cons_of_mem _ member)) faithful.2 knownAfter
      exact ⟨(entry.1, { entry.2 with instructions }) :: folded,
        by simp [foldBlocks, blockFolded, restFolded], .cons ⟨rfl, instructions, rfl, put⟩ others⟩

def withBlocks (function : IrFunction) (blocks : List (IrBlockId × IrBasicBlock)) : IrFunction :=
  { function with cfg := { function.cfg with blocks := OrdMap.ofList blocks } }

theorem findSome?_putFor {instructions instructions' : List IrInstruction} {aggregate : IrId}
    (put : List.Forall₂ (PutFor module host function) instructions instructions') :
    instructions'.findSome? (loadOf aggregate) = instructions.findSome? (loadOf aggregate) := by
  induction put with
  | nil => rfl
  | cons first _ ih =>
      have alike : ∀ {inst inst'}, PutFor module host function inst inst' →
          loadOf aggregate inst' = loadOf aggregate inst := by
        rintro inst _ (rfl | ⟨dest, value, word, rfl, -, computes⟩)
        · rfl
        · exact (computes.noLoad aggregate).symm
      rw [List.findSome?_cons, List.findSome?_cons, alike first, ih]

section Replaced

variable {blocks : List (IrBlockId × IrBasicBlock)}
  (put : List.Forall₂ (fun entry entry' => entry'.1 = entry.1 ∧
    BlockPutFor module host function entry.2 entry'.2) function.cfg.blocks.entries blocks)

include put

theorem getBlock_withBlocks (id : IrBlockId) :
    (function.getBlock id = none ∧ (withBlocks function blocks).getBlock id = none) ∨
      ∃ block instructions, function.getBlock id = some block ∧
        (withBlocks function blocks).getBlock id = some { block with instructions } ∧
        List.Forall₂ (PutFor module host function) block.instructions instructions := by
  have related : Option.Rel (BlockPutFor module host function) (function.getBlock id)
      ((withBlocks function blocks).getBlock id) :=
    OrdMap.rel_get?_ofList (R := fun _ => BlockPutFor module host function) put id
  generalize function.getBlock id = before at related ⊢
  generalize (withBlocks function blocks).getBlock id = after at related ⊢
  cases related with
  | none => exact Or.inl ⟨rfl, rfl⟩
  | some same =>
      obtain ⟨instructions, rfl, replaced⟩ := same
      exact Or.inr ⟨_, instructions, rfl, rfl, replaced⟩

theorem declOf_withBlocks : declOf (withBlocks function blocks) = declOf function := by
  funext inst
  refine declOf_congr rfl rfl rfl ?_ ?_
  · intro id regs _
    rcases getBlock_withBlocks put id with ⟨found, found'⟩ | ⟨block, _, found, found', -⟩
    · rw [found, found']
    · rw [found, found']
      rfl
  · intro id aggregate _
    rcases getBlock_withBlocks put id with ⟨found, found'⟩ | ⟨block, _, found, found', replaced⟩
    · rw [found, found']
    · rw [found, found']
      exact findSome?_putFor replaced

theorem edgeMoves_withBlocks : edgeMoves (withBlocks function blocks) = edgeMoves function := by
  funext source target
  unfold edgeMoves
  rcases getBlock_withBlocks put target with ⟨found, found'⟩ | ⟨block, _, found, found', -⟩
  · rw [found, found']
  · rw [found, found']

/-- What is put in place of an instruction runs as the instruction does. -/
theorem execute_withBlocks {frame : Frame} {world : World E} {state : State E}
    {inst inst' : IrInstruction} (runs : Runs module host function frame world state)
    (available : ∀ reg ∈ inst.uses, Available function reg (pointOf state))
    (putFor : PutFor module host function inst inst') :
    execute module host (withBlocks function blocks) inst' state.frame state.world =
      execute module host function inst state.frame state.world := by
  rcases putFor with rfl | ⟨dest, value, word, rfl, isWord, computes⟩
  · unfold execute
    rw [declOf_withBlocks put]
  · have computed := computes.computes runs available
    have constant : pureValue (declOf (withBlocks function blocks) (.const dest value))
        state.frame.regs (.const dest value) = some (.ok word) := by simp [pureValue, isWord]
    have ran : execute module host function inst state.frame state.world =
        .ok ({ state.frame with regs := state.frame.regs.set dest word }, state.world) :=
      execute_eq_ok.mpr ⟨some word, eval_of_pure computed _ _, (computes.after _ _).symm⟩
    rw [ran]
    exact execute_eq_ok.mpr ⟨some word, eval_of_pure constant _ _, rfl⟩

theorem step_withBlocks (ssa : SsaForm function) {frame : Frame} {world : World E}
    {state : State E} (runs : Runs module host function frame world state) :
    step module host (withBlocks function blocks) state = step module host function state := by
  unfold step
  rcases getBlock_withBlocks put state.block with ⟨found, found'⟩ | ⟨block, instructions, found,
    found', replaced⟩
  · rw [found, found']
  rw [found, found']
  simp only
  cases here : block.instructions[state.pc]? with
  | none =>
      have done : instructions[state.pc]? = none := by
        rw [List.getElem?_eq_none_iff] at here ⊢
        exact replaced.length_eq ▸ here
      simp only [done]
      cases chosen : chosenTarget state.frame.regs block.terminator with
      | some target =>
          rw [terminate_of_chosen chosen, terminate_of_chosen chosen, transfer, transfer,
            edgeMoves_withBlocks put]
      | none =>
          cases isTerm : block.terminator <;> first
            | rfl
            | simp [isTerm, chosenTarget] at chosen
  | some inst =>
      obtain ⟨inside, isInst⟩ := List.getElem?_eq_some_iff.mp here
      have inside' : state.pc < instructions.length := replaced.length_eq ▸ inside
      have putHere := replaced.get inside inside'
      simp only [List.get_eq_getElem, isInst] at putHere
      simp only [List.getElem?_eq_getElem inside',
        execute_withBlocks put runs (ssa.operands found here) putHere]

end Replaced

end Rayzor.Passes.ConstantFolding
