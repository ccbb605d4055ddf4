import Rayzor.Library.Worklist
import Rayzor.Analysis.DominatorTree

/-!
Contract: the part of a function a resumed loop header still runs, and which of
the values read there it is handed.

Owns: the region and the sets the choice is made with, the block each register
is recorded under, the places values are read at, `needsSlot`, and what these
say about the paths from the header.
-/

namespace Rayzor.Osr

open Ir Library Library.Graph Analysis Ssa

/-- What a worklist finds from `roots` on: each edge puts at most one block on
it. The sets built from it do not depend on the order blocks are taken in. -/
def found (function : IrFunction) (next : IrBlockId → List IrBlockId) (roots : List IrBlockId) :
    List IrBlockId :=
  explore next (function.cfg.edges.length + roots.length + 1) roots []

/-- The blocks a transfer at `start` still has to execute, in block order. -/
def blocksReachableFrom (function : IrFunction) (start : IrBlockId) : List IrBlockId :=
  let isBlock := fun id => function.cfg.blocks.contains id
  let seen := found function (fun id => (successorsOf function.cfg id).filter isBlock)
    (if isBlock start then [start] else [])
  function.cfg.blocks.keys.filter (seen.contains ·)

def blocksDominatedBy (function : IrFunction) (header : IrBlockId) : List IrBlockId :=
  let domtree := DominatorTree.compute function
  function.cfg.blocks.keys.filter (domtree.dominates header ·)

def edgesFrom (function : IrFunction) (region : List IrBlockId) (target : IrBlockId) :
    List IrBlockId :=
  (function.cfg.edges.filter fun edge => edge.2 == target && region.contains edge.1).map Prod.fst

/-- The blocks of `region` from which `header` can be reached again. -/
def blocksReaching (function : IrFunction) (header : IrBlockId) (region : List IrBlockId) :
    List IrBlockId :=
  found function (edgesFrom function region) [header]

def reachedAround (function : IrFunction) (header block : IrBlockId) : List IrBlockId :=
  found function (fun id => (successorsOf function.cfg id).filter (· != block))
    (if header = block then [] else [header])

inductive Definition where
  | phi (ty : IrType)
  | inst (inst : IrInstruction)

def blockDefinitions (block : IrBasicBlock) : List (IrId × Definition) :=
  block.phiNodes.map (fun phi => (phi.dest, .phi phi.ty)) ++
    block.instructions.filterMap fun inst => inst.dest.map (·, .inst inst)

def definitions (function : IrFunction) : OrdMap IrId Definition :=
  OrdMap.ofList (function.cfg.blocks.values.flatMap blockDefinitions)

/-- The block each register is recorded under: parameters under the entry block,
anything else under the last block that reports it. -/
def definitionBlocks (function : IrFunction) : OrdMap IrId IrBlockId :=
  OrdMap.ofList
    (function.signature.parameters.map (fun param => (param.reg, function.cfg.entryBlock)) ++
      function.cfg.blocks.entries.flatMap fun entry =>
        (blockDefinitions entry.2).map fun defined => (defined.1, entry.1))

def terminatorUses : IrTerminator → List IrId
  | .condBranch condition _ _ => [condition]
  | .switch value _ _ => [value]
  | .ret value => value.toList
  | .noReturn call => [call]
  | .branch _ | .unreachable => []

/-- The registers a block of the region reads, each with the block the read is
in: for a phi, the predecessor it reads from. -/
def blockUses (region : List IrBlockId) (id : IrBlockId) (block : IrBasicBlock) :
    List (IrId × IrBlockId) :=
  block.phiNodes.flatMap (fun phi =>
    (phi.incoming.filter fun entry => region.contains entry.1).map fun entry =>
      (entry.2, entry.1)) ++
    (block.instructions.flatMap (·.uses) ++ terminatorUses block.terminator).map (·, id)

def regionUses (function : IrFunction) (region : List IrBlockId) : List (IrId × IrBlockId) :=
  region.flatMap fun id => ((function.getBlock id).map (blockUses region id)).getD []

/-- What the header's layout is worked out from. -/
structure Survey where
  function : IrFunction
  header : IrBlockId
  relaxed : Bool
  region : List IrBlockId
  dominated : List IrBlockId
  cycle : List IrBlockId
  defs : OrdMap IrId IrBlockId

def survey (function : IrFunction) (header : IrBlockId) (relaxed : Bool) : Survey :=
  let region := blocksReachableFrom function header
  { function, header, relaxed, region
    dominated := blocksDominatedBy function header
    cycle := if relaxed then blocksReaching function header region else region
    defs := definitionBlocks function }

/-- Whether a register read in the block `at_` has to be handed over; `none`
where nothing is recorded to define it. -/
def Survey.needsSlot (survey : Survey) (reg : IrId) (at_ : IrBlockId) : Option Bool :=
  (survey.defs.get? reg).map fun block =>
    if survey.dominated.contains block ||
        (survey.region.contains block && !survey.cycle.contains block) then false
    else if survey.relaxed && survey.region.contains block &&
        !(reachedAround survey.function survey.header block).contains at_ then false
    else true

variable {function : IrFunction}

/-- No edge is counted for two targets. -/
theorem sum_map_le_of_nodup {nodes : List IrBlockId} (distinct : nodes.Nodup)
    (edges : List (IrBlockId × IrBlockId)) (keep : IrBlockId × IrBlockId → Bool) :
    (nodes.map fun node => (edges.filter fun edge => edge.2 == node && keep edge).length).sum ≤
      edges.length := by
  induction nodes generalizing edges with
  | nil => exact Nat.zero_le _
  | cons node others ih =>
      rw [List.nodup_cons] at distinct
      have split : (edges.filter fun edge => edge.2 == node).length +
          (edges.filter fun edge => !(edge.2 == node)).length = edges.length :=
        (List.length_eq_length_filter_add fun edge : IrBlockId × IrBlockId => edge.2 == node).symm
      have here : (edges.filter fun edge => edge.2 == node && keep edge).length ≤
          (edges.filter fun edge => edge.2 == node).length := by
        refine (List.monotone_filter_right edges fun edge both => ?_).length_le
        exact (Bool.and_eq_true _ _ ▸ both).1
      have elsewhere : ∀ other ∈ others,
          (edges.filter fun edge => edge.2 == other && keep edge) =
            (edges.filter fun edge => !(edge.2 == node)).filter
              fun edge => edge.2 == other && keep edge := by
        intro other member
        have different : other ≠ node := fun same => distinct.1 (same ▸ member)
        rw [List.filter_filter]
        refine List.filter_congr fun edge _ => ?_
        by_cases onto : edge.2 = other
        · simp [onto, different]
        · simp [onto]
      have later := ih distinct.2 (edges.filter fun edge => !(edge.2 == node))
      rw [List.map_cons, List.sum_cons,
        List.map_congr_left fun other member => congrArg List.length (elsewhere other member)]
      omega

/-- The worklist has enough steps as long as no edge is counted twice. -/
theorem mem_found_iff {next : IrBlockId → List IrBlockId} {roots nodes : List IrBlockId}
    (distinct : nodes.Nodup) (outside : ∀ node ∉ nodes, next node = [])
    (bounded : (nodes.map fun node => (next node).length).sum ≤ function.cfg.edges.length)
    {id : IrBlockId} :
    id ∈ found function next roots ↔
      ∃ root ∈ roots, Relation.ReflTransGen (Worklist.Follows next) root id := by
  refine Worklist.mem_explore_iff distinct outside ?_
  have everyNode : nodes.filter (· ∉ ([] : List IrBlockId)) = nodes := by simp
  rw [Worklist.remaining, everyNode]
  omega

theorem mem_found_forward {keep : IrBlockId → Bool} {roots : List IrBlockId} {id : IrBlockId} :
    id ∈ found function (fun node => (successorsOf function.cfg node).filter keep) roots ↔
      ∃ root ∈ roots, Relation.ReflTransGen
        (fun source target => BlockEdge function source target ∧ keep target = true) root id := by
  have perNode : ∀ entry ∈ function.cfg.blocks.entries,
      (successorsOf function.cfg entry.1).length = entry.2.successors.length := by
    intro entry member
    have isBlock := (OrdMap.mem_entries_iff function.cfg.blocks entry.1 entry.2).mp member
    simp [successorsOf, IrControlFlowGraph.getBlock, isBlock]
  have total : (function.cfg.blocks.keys.map
      fun node => (successorsOf function.cfg node).length).sum = function.cfg.edges.length := by
    rw [OrdMap.keys, List.map_map, IrControlFlowGraph.edges, List.length_flatMap]
    refine congrArg List.sum (List.map_congr_left fun entry member => ?_)
    rw [List.length_map]
    exact perNode entry member
  rw [mem_found_iff (OrdMap.keys_nodup function.cfg.blocks)]
  · have same : Worklist.Follows (fun node => (successorsOf function.cfg node).filter keep) =
        fun source target => BlockEdge function source target ∧ keep target = true := by
      funext source target
      simp only [Worklist.Follows, List.mem_filter, mem_successorsOf]
    rw [same]
  · intro node absent
    have missing : successorsOf function.cfg node = [] := by
      unfold successorsOf
      cases isBlock : function.cfg.getBlock node with
      | none => rfl
      | some block => exact absurd ((OrdMap.mem_keys_iff _ node).mpr ⟨block, isBlock⟩) absent
    rw [missing]
    rfl
  · rw [← total]
    exact List.sum_le_sum fun node _ => List.length_filter_le _ _

/-- A block on the way from the header. -/
def Reaches (function : IrFunction) (source target : IrBlockId) : Prop :=
  Relation.ReflTransGen (BlockEdge function) source target

theorem mem_region_iff {header id : IrBlockId} (closed : PredecessorsConsistent function)
    (isBlock : ∃ block, function.getBlock header = some block) :
    id ∈ blocksReachableFrom function header ↔ Reaches function header id := by
  have start : function.cfg.blocks.contains header = true :=
    (OrdMap.contains_iff _ _).mpr isBlock
  have isTarget : ∀ {source target}, BlockEdge function source target →
      function.cfg.blocks.contains target = true := by
    intro source target edge
    obtain ⟨block, inFunction, -⟩ := closed.recorded edge
    exact (OrdMap.contains_iff _ _).mpr ⟨block, inFunction⟩
  have same : (fun source target => BlockEdge function source target ∧
      function.cfg.blocks.contains target = true) = BlockEdge function := by
    funext source target
    exact propext ⟨And.left, fun edge => ⟨edge, isTarget edge⟩⟩
  simp only [blocksReachableFrom, List.mem_filter, List.contains_eq_mem, decide_eq_true_eq,
    start, if_true, mem_found_forward, same, List.mem_singleton, exists_eq_left]
  refine ⟨And.right, fun reaches => ⟨?_, reaches⟩⟩
  rw [OrdMap.mem_keys_iff]
  rcases Relation.ReflTransGen.cases_tail reaches with rfl | ⟨_, -, edge⟩
  · exact isBlock
  · exact (OrdMap.contains_iff _ _).mp (isTarget edge)

theorem mem_reachedAround_iff {header block id : IrBlockId} :
    id ∈ reachedAround function header block ↔ header ≠ block ∧
      Relation.ReflTransGen
        (fun source target => BlockEdge function source target ∧ target ≠ block) header id := by
  rw [reachedAround, mem_found_forward]
  by_cases same : header = block
  · simp [same]
  · simp [same]

/-- A block of the region left out of the cycle never leads back. -/
theorem mem_blocksReaching_of_reaches {header id : IrBlockId} {region : List IrBlockId}
    (inside : id ∈ region)
    (closed : ∀ {source target}, source ∈ region → BlockEdge function source target →
      target ∈ region)
    (reaches : Reaches function id header) : id ∈ blocksReaching function header region := by
  have listed : ∀ {source target}, source ∈ edgesFrom function region target ↔
      source ∈ region ∧ BlockEdge function source target := by
    intro source target
    simp only [edgesFrom, IrControlFlowGraph.edges, List.mem_map, List.mem_filter,
      List.mem_flatMap, Prod.exists, Bool.and_eq_true, beq_iff_eq, List.contains_eq_mem,
      decide_eq_true_eq, BlockEdge]
    constructor
    · rintro ⟨_, _, ⟨⟨⟨other, block, member, _, successor, same⟩, rfl, within⟩, rfl⟩⟩
      cases same
      exact ⟨within, block, (OrdMap.mem_entries_iff _ _ _).mp member, successor⟩
    · rintro ⟨within, block, isBlock, successor⟩
      exact ⟨source, target, ⟨⟨source, block, (OrdMap.mem_entries_iff _ _ _).mpr isBlock, target,
        successor, rfl⟩, rfl, within⟩, rfl⟩
  have distinct := List.nodup_dedup (function.cfg.edges.map Prod.snd)
  rw [blocksReaching, mem_found_iff distinct]
  · refine ⟨header, List.mem_singleton_self _, ?_⟩
    induction reaches using Relation.ReflTransGen.head_induction_on with
    | refl => exact .refl
    | head edge _ ih =>
        exact (ih (closed inside edge)).tail (listed.mpr ⟨inside, edge⟩)
  · intro node absent
    simp only [edgesFrom, List.map_eq_nil_iff, List.filter_eq_nil_iff]
    intro edge member keeps
    simp only [Bool.and_eq_true, beq_iff_eq] at keeps
    exact absent (List.mem_dedup.mpr (List.mem_map.mpr ⟨edge, member, keeps.1⟩))
  · refine le_trans (le_of_eq (congrArg List.sum (List.map_congr_left fun node _ => ?_)))
      (sum_map_le_of_nodup (List.nodup_dedup _) function.cfg.edges
        (fun edge => region.contains edge.1))
    rw [edgesFrom, List.length_map]

theorem reaches_of_walk {source target : IrBlockId} {path : List IrBlockId}
    (walk : EntryPath (BlockEdge function) source path target) : Reaches function source target := by
  induction walk with
  | start => exact .refl
  | step _ along ih => exact ih.tail along

theorem walk_of_reaches {source target : IrBlockId} (reaches : Reaches function source target) :
    ∃ path, EntryPath (BlockEdge function) source path target := by
  induction reaches with
  | refl => exact ⟨_, .start⟩
  | tail _ along ih =>
      obtain ⟨path, walk⟩ := ih
      exact ⟨_, .step walk along⟩

theorem reaches_of_mem {source target middle : IrBlockId} {path : List IrBlockId}
    (walk : EntryPath (BlockEdge function) source path target) (member : middle ∈ path) :
    Reaches function middle target := by
  induction walk with
  | start =>
      rw [List.mem_singleton.mp member]
      exact .refl
  | step earlier along ih =>
      rcases List.mem_cons.mp member with rfl | before
      · exact .refl
      · exact (ih before).tail along

theorem mem_reachedAround_of_walk {header block id : IrBlockId} {path : List IrBlockId}
    (walk : EntryPath (BlockEdge function) header path id) (absent : block ∉ path) :
    id ∈ reachedAround function header block := by
  rw [mem_reachedAround_iff]
  induction walk with
  | start => exact ⟨fun same => absent (same ▸ List.mem_cons_self), .refl⟩
  | step _ along ih =>
      rw [List.mem_cons, not_or] at absent
      obtain ⟨different, around⟩ := ih absent.2
      exact ⟨different, around.tail ⟨along, Ne.symm absent.1⟩⟩

/-- A register needs no slot where the header dominates the block it is recorded
under, where that block is past the loop, or where every path from the header
comes by it. -/
theorem recorded_of_computed {header block at_ : IrBlockId} {relaxed : Bool} {reg : IrId}
    (edges : PredecessorsConsistent function)
    (isBlock : ∃ block, function.getBlock header = some block)
    (computed : (survey function header relaxed).needsSlot reg at_ = some false)
    (recorded : (definitionBlocks function).get? reg = some block) :
    BlockDominates function header block ∨
      Reaches function header block ∧ ¬Reaches function block header ∨
      Graph.Dominates (BlockEdge function) header block at_ := by
  have region : ∀ id, id ∈ blocksReachableFrom function header ↔ Reaches function header id :=
    fun id => mem_region_iff edges isBlock
  obtain ⟨other, isRecorded, decided⟩ := Option.map_eq_some_iff.mp computed
  cases recorded.symm.trans isRecorded
  split_ifs at decided with early around
  · rcases Bool.or_eq_true_iff.mp early with dominated | past
    · exact Or.inl (DominatorTree.dominates_spec edges
        (List.mem_filter.mp (List.contains_iff_mem.mp dominated)).2)
    · simp only [Bool.and_eq_true, Bool.not_eq_true', List.contains_eq_mem, decide_eq_true_eq,
        decide_eq_false_iff_not] at past
      refine Or.inr (Or.inl ⟨(region block).mp past.1, fun back => past.2 ?_⟩)
      simp only [survey]
      split_ifs
      · refine mem_blocksReaching_of_reaches past.1 (fun within edge => ?_) back
        exact (region _).mpr (((region _).mp within).tail edge)
      · exact past.1
  · refine Or.inr (Or.inr fun path walk => ?_)
    by_contra absent
    simp only [Bool.and_eq_true, Bool.not_eq_true', List.contains_eq_mem,
      decide_eq_false_iff_not] at around
    exact around.2 (mem_reachedAround_of_walk walk absent)

end Rayzor.Osr
