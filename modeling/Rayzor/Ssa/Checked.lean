import Rayzor.Ssa.Points

/-!
Contract: a finite check that a function is in SSA form, from a table of what is
available on entry to each block.

Owns: the check and its soundness.

Does not own: computing the table, or functions whose blocks need an argument
about paths that never run.
-/

namespace Rayzor.Ssa

open Ir Library Library.Graph

def definitionPoints (function : IrFunction) : List (IrId × Point) :=
  function.signature.parameters.map (fun param => (param.reg, entryPoint function)) ++
    function.cfg.blocks.entries.flatMap fun entry =>
      entry.2.phiNodes.map (fun phi => (phi.dest, (entry.1, 0))) ++
        entry.2.instructions.zipIdx.filterMap fun placed =>
          placed.1.writes.map fun reg => (reg, (entry.1, placed.2 + 1))

def written (instructions : List IrInstruction) : List IrId := instructions.filterMap (·.writes)

def phisOf (function : IrFunction) (id : IrBlockId) : List IrId :=
  ((function.getBlock id).map fun block => block.phiNodes.map (·.dest)).getD []

/-- The table says what each block is entered with, its phis included. -/
structure Checked (function : IrFunction) (entering : IrBlockId → List IrId) : Prop where
  single : ((definitionPoints function).map Prod.fst).Nodup
  entryPhis : phisOf function function.cfg.entryBlock = []
  atEntry : ∀ reg ∈ entering function.cfg.entryBlock,
    reg ∈ function.signature.parameters.map (·.reg)
  edges : ∀ entry ∈ function.cfg.blocks.entries, ∀ target ∈ entry.2.successors,
    ∀ reg ∈ entering target, reg ∈ phisOf function target ∨
      reg ∈ entering entry.1 ++ written entry.2.instructions
  operands : ∀ entry ∈ function.cfg.blocks.entries, ∀ placed ∈ entry.2.instructions.zipIdx,
    ∀ reg ∈ placed.1.uses,
      reg ∈ entering entry.1 ++ written (entry.2.instructions.take placed.2)
  terminators : ∀ entry ∈ function.cfg.blocks.entries, ∀ reg ∈ entry.2.terminator.reads,
    reg ∈ entering entry.1 ++ written entry.2.instructions
  incoming : ∀ entry ∈ function.cfg.blocks.entries, ∀ phi ∈ entry.2.phiNodes,
    ∀ source ∈ function.cfg.blocks.entries, ∀ pair ∈ phi.incoming, pair.1 = source.1 →
      pair.2 ∈ entering source.1 ++ written source.2.instructions

instance (function : IrFunction) (entering : IrBlockId → List IrId) :
    Decidable (Checked function entering) :=
  decidable_of_iff
    (((definitionPoints function).map Prod.fst).Nodup ∧
      phisOf function function.cfg.entryBlock = [] ∧
      (∀ reg ∈ entering function.cfg.entryBlock,
        reg ∈ function.signature.parameters.map (·.reg)) ∧
      (∀ entry ∈ function.cfg.blocks.entries, ∀ target ∈ entry.2.successors,
        ∀ reg ∈ entering target, reg ∈ phisOf function target ∨
          reg ∈ entering entry.1 ++ written entry.2.instructions) ∧
      (∀ entry ∈ function.cfg.blocks.entries, ∀ placed ∈ entry.2.instructions.zipIdx,
        ∀ reg ∈ placed.1.uses,
          reg ∈ entering entry.1 ++ written (entry.2.instructions.take placed.2)) ∧
      (∀ entry ∈ function.cfg.blocks.entries, ∀ reg ∈ entry.2.terminator.reads,
        reg ∈ entering entry.1 ++ written entry.2.instructions) ∧
      ∀ entry ∈ function.cfg.blocks.entries, ∀ phi ∈ entry.2.phiNodes,
        ∀ source ∈ function.cfg.blocks.entries, ∀ pair ∈ phi.incoming, pair.1 = source.1 →
          pair.2 ∈ entering source.1 ++ written source.2.instructions)
    ⟨fun ⟨single, entryPhis, atEntry, edges, operands, terminators, incoming⟩ =>
      ⟨single, entryPhis, atEntry, edges, operands, terminators, incoming⟩,
      fun checked => ⟨checked.single, checked.entryPhis, checked.atEntry, checked.edges,
        checked.operands, checked.terminators, checked.incoming⟩⟩

section Soundness

variable {function : IrFunction} {entering : IrBlockId → List IrId}

theorem getBlock_eq_some_iff {id : IrBlockId} {block : IrBasicBlock} :
    function.getBlock id = some block ↔ (id, block) ∈ function.cfg.blocks.entries :=
  (OrdMap.mem_entries_iff function.cfg.blocks id block).symm

theorem mem_definitionPoints {reg : IrId} {point : Point} (defines : DefinesAt function reg point) :
    (reg, point) ∈ definitionPoints function := by
  unfold definitionPoints
  rw [List.mem_append, List.mem_flatMap]
  rcases defines with member | ⟨found, member⟩ | ⟨found, here, writes⟩
  · obtain ⟨param, listed, rfl⟩ := List.mem_map.mp member
    exact Or.inl (List.mem_map.mpr ⟨param, listed, rfl⟩)
  · refine Or.inr ⟨_, getBlock_eq_some_iff.mp found, List.mem_append.mpr (Or.inl ?_)⟩
    obtain ⟨phi, listed, rfl⟩ := List.mem_map.mp member
    exact List.mem_map.mpr ⟨phi, listed, rfl⟩
  · refine Or.inr ⟨_, getBlock_eq_some_iff.mp found, List.mem_append.mpr (Or.inr ?_)⟩
    refine List.mem_filterMap.mpr ⟨(_, _), List.mem_zipIdx_iff_getElem?.mpr here, ?_⟩
    simp only [writes, Option.map_some]

theorem mem_written_take {instructions : List IrInstruction} {pc : Nat} {reg : IrId}
    (member : reg ∈ written (instructions.take (pc + 1))) :
    reg ∈ written (instructions.take pc) ∨
      ∃ inst, instructions[pc]? = some inst ∧ inst.writes = some reg := by
  rw [List.take_add_one, written, List.filterMap_append, List.mem_append] at member
  rcases member with earlier | last
  · exact Or.inl earlier
  · obtain ⟨inst, here, writes⟩ := List.mem_filterMap.mp last
    exact Or.inr ⟨inst, Option.mem_toList.mp here, writes⟩

/-- What the table lists on entry, and what a block has assigned since, was
defined somewhere on the way. -/
theorem Checked.met (checked : Checked function entering) {path : List Point} {point : Point}
    (walk : EntryPath (Edge function) (entryPoint function) path point) :
    (∀ reg ∈ entering point.1, ∃ place ∈ path, DefinesAt function reg place) ∧
      ∀ block, function.getBlock point.1 = some block →
        ∀ reg ∈ written (block.instructions.take point.2),
          ∃ place ∈ path, DefinesAt function reg place := by
  induction walk with
  | start =>
      constructor
      · exact fun reg member => ⟨_, List.mem_cons_self, .parameter (checked.atEntry reg member)⟩
      · exact fun block _ reg member => absurd member List.not_mem_nil
  | step earlier along ih =>
      obtain ⟨entered, assigned⟩ := ih
      have extend : ∀ {path : List Point} {point : Point} {reg : IrId},
          (∃ place ∈ path, DefinesAt function reg place) →
          ∃ place ∈ point :: path, DefinesAt function reg place :=
        fun ⟨place, member, defines⟩ => ⟨place, List.mem_cons_of_mem _ member, defines⟩
      cases along with
      | @within id block pc found inside =>
          refine ⟨fun reg member => extend (entered reg member), ?_⟩
          intro block' found' reg member
          rcases mem_written_take member with before | ⟨inst, here, writes⟩
          · exact extend (assigned block' found' reg before)
          · exact ⟨_, List.mem_cons_self, .instruction found' here writes⟩
      | @across id target block pc found done successor =>
          refine ⟨fun reg member => ?_, fun block _ reg member => absurd member List.not_mem_nil⟩
          rcases checked.edges _ (getBlock_eq_some_iff.mp found) target successor reg member
            with phi | before
          · refine ⟨_, List.mem_cons_self, ?_⟩
            unfold phisOf at phi
            cases foundTarget : function.getBlock target with
            | none =>
                rw [foundTarget] at phi
                exact absurd phi List.not_mem_nil
            | some targetBlock =>
                rw [foundTarget] at phi
                exact .phi foundTarget phi
          · rcases List.mem_append.mp before with atStart | inBlock
            · exact extend (entered reg atStart)
            · refine extend (assigned block found reg ?_)
              rwa [List.take_of_length_le done]

theorem Checked.available (checked : Checked function entering) {id : IrBlockId}
    {block : IrBasicBlock} {pc : Nat} {reg : IrId} (found : function.getBlock id = some block)
    (listed : reg ∈ entering id ++ written (block.instructions.take pc)) :
    Available function reg (id, pc) := by
  intro path walk
  obtain ⟨entered, assigned⟩ := checked.met walk
  rcases List.mem_append.mp listed with atStart | inBlock
  · exact entered reg atStart
  · exact assigned block found reg inBlock

theorem Checked.ssaForm (checked : Checked function entering) : SsaForm function where
  operands := fun found here reg used =>
    checked.available found (checked.operands (_, _) (getBlock_eq_some_iff.mp found) (_, _)
      (List.mem_zipIdx_iff_getElem?.mpr here) reg used)
  terminator := fun found reg read => by
    refine checked.available found ?_
    rw [List.take_length]
    exact checked.terminators _ (getBlock_eq_some_iff.mp found) reg read
  phis := fun found member incoming foundSource => by
    refine checked.available foundSource ?_
    rw [List.take_length]
    exact checked.incoming _ (getBlock_eq_some_iff.mp found) _ member _
      (getBlock_eq_some_iff.mp foundSource) _ incoming rfl
  single := fun first second =>
    congrArg Prod.snd (List.inj_on_of_nodup_map checked.single (mem_definitionPoints first)
      (mem_definitionPoints second) rfl)
  parametersDistinct := by
    have distinct := checked.single
    rw [definitionPoints, List.map_append, List.nodup_append] at distinct
    have same : (function.signature.parameters.map fun param =>
        (param.reg, entryPoint function)).map Prod.fst =
          function.signature.parameters.map (·.reg) := by
      rw [List.map_map]
      rfl
    exact same ▸ distinct.1
  phisDistinct := fun {id block} found => by
    have distinct := checked.single
    rw [definitionPoints, List.map_append, List.nodup_append] at distinct
    have perBlock := distinct.2.1
    rw [List.map_flatMap, List.nodup_flatMap] at perBlock
    have own := perBlock.1 _ (getBlock_eq_some_iff.mp found)
    rw [List.map_append, List.nodup_append] at own
    have same : (block.phiNodes.map fun phi => (phi.dest, ((id, 0) : Point))).map Prod.fst =
        block.phiNodes.map (·.dest) := by
      rw [List.map_map]
      rfl
    exact same ▸ own.1
  entryPhis := fun {block} found => by
    have none := checked.entryPhis
    rw [phisOf, found] at none
    exact List.map_eq_nil_iff.mp none

def predecessorsChecked (function : IrFunction) : Bool :=
  (function.cfg.blocks.entries.all fun entry => entry.2.successors.all fun target =>
    function.cfg.blocks.entries.any fun other =>
      other.1 == target && other.2.predecessors.contains entry.1) &&
    function.cfg.blocks.entries.all fun entry => entry.2.predecessors.all fun source =>
      function.cfg.blocks.entries.any fun other =>
        other.1 == source && other.2.successors.contains entry.1

theorem predecessorsConsistent_of_checked (checked : predecessorsChecked function = true) :
    PredecessorsConsistent function := by
  simp only [predecessorsChecked, Bool.and_eq_true, List.all_eq_true, List.any_eq_true,
    beq_iff_eq, List.contains_iff_mem] at checked
  constructor
  · rintro source target ⟨block, found, successor⟩
    obtain ⟨other, member, rfl, listed⟩ :=
      checked.1 _ (getBlock_eq_some_iff.mp found) target successor
    exact ⟨other.2, getBlock_eq_some_iff.mpr member, listed⟩
  · intro source target block found listed
    obtain ⟨other, member, rfl, successor⟩ :=
      checked.2 _ (getBlock_eq_some_iff.mp found) source listed
    exact ⟨other.2, getBlock_eq_some_iff.mpr member, successor⟩

/-- Phis name the sources of the edges into their block, one by one. -/
def phisChecked (function : IrFunction) : Bool :=
  function.cfg.blocks.entries.all fun entry => entry.2.phiNodes.all fun phi =>
    (phi.incoming.all fun pair => function.cfg.blocks.entries.any fun other =>
      other.1 == pair.1 && other.2.successors.contains entry.1) &&
      function.cfg.blocks.entries.all fun other =>
        !other.2.successors.contains entry.1 || phi.incoming.any fun pair => pair.1 == other.1

theorem phisMatch_of_checked (checked : phisChecked function = true) :
    PhisMatchPredecessors function := by
  intro id block phi found member source
  simp only [phisChecked, List.all_eq_true, Bool.and_eq_true, Bool.or_eq_true, List.any_eq_true,
    beq_iff_eq, List.contains_iff_mem, Bool.not_eq_true'] at checked
  obtain ⟨named, complete⟩ := checked _ (getBlock_eq_some_iff.mp found) phi member
  constructor
  · intro listed
    obtain ⟨pair, incoming, rfl⟩ := List.mem_map.mp listed
    obtain ⟨other, inFunction, same, successor⟩ := named pair incoming
    exact ⟨other.2, getBlock_eq_some_iff.mpr (same ▸ inFunction), successor⟩
  · rintro ⟨other, inFunction, successor⟩
    rcases complete _ (getBlock_eq_some_iff.mp inFunction) with absent | ⟨pair, incoming, same⟩
    · have present := List.contains_iff_mem.mpr successor
      rw [absent] at present
      cases present
    · exact List.mem_map.mpr ⟨pair, incoming, same⟩

end Soundness

end Rayzor.Ssa
