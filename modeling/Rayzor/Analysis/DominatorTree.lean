import Rayzor.Library.DepthFirst
import Rayzor.Analysis.Dominators
import Rayzor.Ssa.Points

/-!
Contract: the dominator tree passes consult.

Owns: reverse postorder, the tree with its children lists and the query
`dominates`; and that what the tree says holds of the blocks.
-/

namespace Rayzor.Analysis

open Ir Library Library.Graph Ssa

def successorsOf (cfg : IrControlFlowGraph) (id : IrBlockId) : List IrBlockId :=
  ((cfg.getBlock id).map (·.successors)).getD []

def blockIds (cfg : IrControlFlowGraph) (entry : IrBlockId) : List IrBlockId :=
  entry :: cfg.blocks.entries.flatMap fun block => block.1 :: block.2.successors

def postorder (cfg : IrControlFlowGraph) (entry : IrBlockId) : List IrBlockId :=
  (dfs (successorsOf cfg) ((blockIds cfg entry).length + 1) entry ⟨[], []⟩).postorder

def reversePostorder (cfg : IrControlFlowGraph) (entry : IrBlockId) : List IrBlockId :=
  (postorder cfg entry).reverse

def predecessorsOf (cfg : IrControlFlowGraph) (id : IrBlockId) : List IrBlockId :=
  ((cfg.getBlock id).map (·.predecessors)).getD []

def densePredecessors (cfg : IrControlFlowGraph) (rpo : List IrBlockId) : List (List Nat) :=
  rpo.map fun block => (predecessorsOf cfg block).filterMap fun pred => rpo.idxOf? pred

structure DominatorTree where
  idom : OrdMap IrBlockId IrBlockId
  children : OrdMap IrBlockId (List IrBlockId)
  entry : IrBlockId

namespace DominatorTree

/-- The solved table back in block ids; the entry has no immediate dominator. -/
def finalIdom (rpo : List IrBlockId) (idom : Dominators.Table) : OrdMap IrBlockId IrBlockId :=
  OrdMap.ofList ((idom.zipIdx.drop 1).filterMap fun entry =>
    entry.1.bind fun dom => (rpo[entry.2]?).bind fun block => (rpo[dom]?).map (block, ·))

def addChild (children : OrdMap IrBlockId (List IrBlockId)) (entry : IrBlockId × IrBlockId) :
    OrdMap IrBlockId (List IrBlockId) :=
  children.insert entry.2 ((children.get? entry.2).getD [] ++ [entry.1])

def childrenOf (idom : OrdMap IrBlockId IrBlockId) : OrdMap IrBlockId (List IrBlockId) :=
  (idom.entries.foldl addChild .empty).mapValues fun _ list =>
    list.mergeSort fun left right => decide (left ≤ right)

def compute (function : IrFunction) : DominatorTree :=
  let cfg := function.cfg
  let entry := cfg.entryBlock
  if cfg.blocks.entries.length ≤ 1 then { idom := .empty, children := .empty, entry }
  else
    let rpo := reversePostorder cfg entry
    let idom := finalIdom rpo (Dominators.solve (densePredecessors cfg rpo))
    { idom, children := childrenOf idom, entry }

def childrenAt (tree : DominatorTree) (block : IrBlockId) : List IrBlockId :=
  (tree.children.get? block).getD []

/-- Walk up from a block looking for another one. -/
def climbsTo (tree : DominatorTree) (target : IrBlockId) : Nat → IrBlockId → Bool
  | 0, _ => false
  | fuel + 1, current =>
      match tree.idom.get? current with
      | none => false
      | some dom => dom == target || climbsTo tree target fuel dom

def dominates (tree : DominatorTree) (a b : IrBlockId) : Bool :=
  a == b || tree.climbsTo a (tree.idom.entries.length + 1) b || a == tree.entry

end DominatorTree

variable {function : IrFunction}

def BlockReachable (function : IrFunction) (id : IrBlockId) : Prop :=
  Graph.Reachable (BlockEdge function) function.cfg.entryBlock id

/-- Every path of blocks to `second` goes through `first`. -/
def BlockDominates (function : IrFunction) (first second : IrBlockId) : Prop :=
  Graph.Dominates (BlockEdge function) function.cfg.entryBlock first second

theorem mem_successorsOf {source target : IrBlockId} :
    target ∈ successorsOf function.cfg source ↔ BlockEdge function source target := by
  unfold successorsOf BlockEdge IrFunction.getBlock
  cases function.cfg.getBlock source <;> simp

theorem postorder_extends (function : IrFunction) :
    ∃ after, DepthFirst.Extends (successorsOf function.cfg) [function.cfg.entryBlock] ⟨[], []⟩
      after (postorder function.cfg function.cfg.entryBlock) := by
  refine ⟨_, DepthFirst.extends_dfs_start ?_ List.mem_cons_self⟩
  intro node _ successor edge
  obtain ⟨block, found, member⟩ := mem_successorsOf.mp edge
  refine List.mem_cons_of_mem _ (List.mem_flatMap.mpr ⟨(node, block), ?_, ?_⟩)
  · exact (OrdMap.mem_entries_iff _ _ _).mpr found
  · exact List.mem_cons_of_mem _ member

section Order

variable {rpo : List IrBlockId} (isRpo : rpo = reversePostorder function.cfg function.cfg.entryBlock)
include isRpo

theorem rpo_nodup : rpo.Nodup := by
  obtain ⟨_, finished⟩ := postorder_extends function
  rw [isRpo]
  exact List.nodup_reverse.mpr finished.nodup

theorem mem_rpo_of_reachable {id : IrBlockId} (reachable : BlockReachable function id) :
    id ∈ rpo := by
  obtain ⟨after, finished⟩ := postorder_extends function
  have listed : ∀ node, node ∈ after.visited → node ∈ rpo := by
    intro node visited
    rw [isRpo]
    exact List.mem_reverse.mpr (((finished.visited node).mp visited).resolve_left
      List.not_mem_nil)
  obtain ⟨path, walk⟩ := reachable
  induction walk with
  | start => exact listed _ (finished.rooted _ (List.mem_singleton_self _))
  | @step path source target earlier along ih =>
      have fromRpo : source ∈ postorder function.cfg function.cfg.entryBlock := by
        rw [isRpo] at ih
        exact List.mem_reverse.mp ih
      exact listed _ (finished.closed source fromRpo target (mem_successorsOf.mpr along))

theorem earlier_predecessor {index : Nat} (inside : index < rpo.length) :
    rpo[index] = function.cfg.entryBlock ∨
      ∃ earlier, ∃ (before : earlier < index), BlockEdge function rpo[earlier] rpo[index] := by
  obtain ⟨_, finished⟩ := postorder_extends function
  have order : postorder function.cfg function.cfg.entryBlock = rpo.reverse := by
    rw [isRpo, reversePostorder, List.reverse_reverse]
  have parented := finished.parented
  have cut : rpo.reverse =
      (rpo.drop (index + 1)).reverse ++ rpo[index] :: (rpo.take index).reverse := by
    conv_lhs => rw [← List.take_append_drop index rpo, List.drop_eq_getElem_cons inside]
    simp
  rw [order, cut] at parented
  rcases parented.split with isRoot | ⟨parent, member, edge⟩
  · exact Or.inl (List.mem_singleton.mp isRoot)
  · obtain ⟨earlier, before, rfl⟩ := List.mem_iff_getElem.mp (List.mem_reverse.mp member)
    rw [List.length_take] at before
    refine Or.inr ⟨earlier, by omega, ?_⟩
    rw [List.getElem_take] at edge
    exact mem_successorsOf.mp edge

theorem rpo_head : ∃ rest, rpo = function.cfg.entryBlock :: rest := by
  have member := mem_rpo_of_reachable isRpo (Graph.Reachable.start)
  rcases rpo with _ | ⟨head, rest⟩
  · cases member
  · refine ⟨rest, ?_⟩
    rcases earlier_predecessor isRpo (Nat.succ_pos _) with isEntry | found
    · rw [← isEntry]
      rfl
    · obtain ⟨_, before, _⟩ := found
      exact absurd before (Nat.not_lt_zero _)

variable (consistent : PredecessorsConsistent function)
include consistent

theorem dense_of_edge {source target : IrBlockId} (fromRpo : source ∈ rpo) (toRpo : target ∈ rpo)
    (edge : BlockEdge function source target) :
    Dominators.DenseEdge (densePredecessors function.cfg rpo) (rpo.idxOf source)
      (rpo.idxOf target) := by
  obtain ⟨block, found, member⟩ := consistent.recorded edge
  have inside := List.idxOf_lt_length_of_mem toRpo
  have atTarget : (densePredecessors function.cfg rpo).getD (rpo.idxOf target) [] =
      block.predecessors.filterMap fun pred => rpo.idxOf? pred := by
    rw [densePredecessors, List.getD_eq_getElem _ _ (by rwa [List.length_map]), List.getElem_map,
      List.getElem_idxOf inside]
    have found' : function.cfg.getBlock target = some block := found
    rw [predecessorsOf, found']
    rfl
  rw [Dominators.DenseEdge, atTarget, List.mem_filterMap]
  have fromInside := List.idxOf_lt_length_of_mem fromRpo
  refine ⟨source, member, List.idxOf?_eq_some_iff.mpr
    ⟨fromInside, List.getElem_idxOf fromInside, ?_⟩⟩
  intro other before same
  exact before.ne ((rpo_nodup isRpo).getElem_inj_iff.mp
    (same.trans (List.getElem_idxOf fromInside).symm))

theorem dense_path {path : List IrBlockId} {id : IrBlockId}
    (walk : EntryPath (BlockEdge function) function.cfg.entryBlock path id) :
    EntryPath (Dominators.DenseEdge (densePredecessors function.cfg rpo)) 0
      (path.map rpo.idxOf) (rpo.idxOf id) := by
  induction walk with
  | start =>
      obtain ⟨rest, first⟩ := rpo_head isRpo
      have zero : rpo.idxOf function.cfg.entryBlock = 0 := by rw [first, List.idxOf_cons_self]
      rw [List.map_singleton, zero]
      exact .start
  | @step path source target earlier along ih =>
      have fromRpo := mem_rpo_of_reachable isRpo ⟨path, earlier⟩
      have toRpo := mem_rpo_of_reachable isRpo ⟨_, .step earlier along⟩
      exact .step ih (dense_of_edge isRpo consistent fromRpo toRpo along)

theorem dense_ordered : Dominators.Ordered (densePredecessors function.cfg rpo) := by
  have sameLength : (densePredecessors function.cfg rpo).length = rpo.length := List.length_map _
  obtain ⟨rest, first⟩ := rpo_head isRpo
  refine ⟨?_, ?_, ?_⟩
  · rw [sameLength, first]
    exact Nat.succ_pos _
  · intro a b edge
    have inside := Dominators.lt_length_of_edge edge
    rw [Dominators.DenseEdge, List.getD_eq_getElem _ _ inside] at edge
    simp only [densePredecessors, List.getElem_map, List.mem_filterMap] at edge
    obtain ⟨pred, -, position⟩ := edge
    rw [sameLength]
    exact (List.idxOf?_eq_some_iff.mp position).1
  · intro b inside inner
    rw [sameLength] at inside
    rcases earlier_predecessor isRpo inside with isEntry | ⟨earlier, before, edge⟩
    · have distinct := rpo_nodup isRpo
      have nonempty : 0 < rpo.length := Nat.lt_of_le_of_lt (Nat.zero_le b) inside
      have zero : rpo[0] = function.cfg.entryBlock := by simp [first]
      exact absurd ((distinct.getElem_inj_iff).mp (isEntry.trans zero.symm)) inner
    · refine ⟨earlier, before, ?_⟩
      have dense := dense_of_edge isRpo consistent (List.getElem_mem _) (List.getElem_mem _) edge
      rwa [(rpo_nodup isRpo).idxOf_getElem, (rpo_nodup isRpo).idxOf_getElem] at dense

end Order

namespace DominatorTree

theorem finalIdom_spec {rpo : List IrBlockId} {table : Dominators.Table} {block dom : IrBlockId}
    (found : (finalIdom rpo table).get? block = some dom) :
    ∃ index above, index ≠ 0 ∧ table.getD index none = some above ∧
      rpo[index]? = some block ∧ rpo[above]? = some dom := by
  have member := OrdMap.mem_of_get?_ofList found
  obtain ⟨⟨entry, index⟩, listed, made⟩ := List.mem_filterMap.mp member
  obtain ⟨above, isSome, made⟩ := Option.bind_eq_some_iff.mp made
  obtain ⟨block', atIndex, made⟩ := Option.bind_eq_some_iff.mp made
  obtain ⟨dom', atAbove, made⟩ := Option.map_eq_some_iff.mp made
  cases made
  simp only at isSome atIndex
  obtain ⟨position, inside, same⟩ := List.mem_iff_getElem.mp listed
  rw [List.getElem_drop, List.getElem_zipIdx] at same
  cases same
  refine ⟨_, above, ?_, ?_, atIndex, atAbove⟩
  · omega
  · rw [List.length_drop, List.length_zipIdx] at inside
    rw [List.getD_eq_getElem _ _ (by omega)]
    simpa using isSome

theorem idom_compute {block dom : IrBlockId}
    (found : (compute function).idom.get? block = some dom) :
    (finalIdom (reversePostorder function.cfg function.cfg.entryBlock)
      (Dominators.solve (densePredecessors function.cfg
        (reversePostorder function.cfg function.cfg.entryBlock)))).get? block = some dom := by
  unfold compute at found
  simp only at found
  split_ifs at found
  · cases found
  · exact found

theorem entry_compute : (compute function).entry = function.cfg.entryBlock := by
  unfold compute
  simp only
  split_ifs <;> rfl

section Sound

variable (consistent : PredecessorsConsistent function)
include consistent

theorem idom_spec {block dom : IrBlockId}
    (found : (compute function).idom.get? block = some dom) :
    dom ≠ block ∧ BlockDominates function dom block := by
  obtain ⟨index, above, inner, immediate, atIndex, atAbove⟩ := finalIdom_spec (idom_compute found)
  have ordered := dense_ordered rfl consistent
  have lower := (Dominators.solve_descending ordered inner immediate).1
  have distinct : (reversePostorder function.cfg function.cfg.entryBlock).Nodup := rpo_nodup rfl
  obtain ⟨indexInside, isBlock⟩ := List.getElem?_eq_some_iff.mp atIndex
  obtain ⟨aboveInside, isDom⟩ := List.getElem?_eq_some_iff.mp atAbove
  constructor
  · intro same
    rw [← isBlock, ← isDom] at same
    exact lower.ne (distinct.getElem_inj_iff.mp same)
  · intro path walk
    have dense := dense_path rfl consistent walk
    have position : (reversePostorder function.cfg function.cfg.entryBlock).idxOf block = index := by
      rw [← isBlock]
      exact distinct.idxOf_getElem _ _
    rw [position] at dense
    have onPath := Dominators.solve_dominates ordered
      (.up inner immediate (.refl above)) _ dense
    obtain ⟨node, member, isAbove⟩ := List.mem_map.mp onPath
    have listed : node ∈ reversePostorder function.cfg function.cfg.entryBlock :=
      mem_rpo_of_reachable rfl (walk.mem_reachable member)
    have same : node = dom := by
      rw [← isDom, ← List.getElem_idxOf (List.idxOf_lt_length_of_mem listed)]
      simp only [isAbove]
    rwa [← same]

theorem climbsTo_spec {target : IrBlockId} {fuel : Nat} {block : IrBlockId}
    (climbs : (compute function).climbsTo target fuel block = true) :
    BlockDominates function target block := by
  induction fuel generalizing block with
  | zero => cases climbs
  | succ fuel ih =>
      unfold climbsTo at climbs
      cases found : (compute function).idom.get? block with
      | none => simp [found] at climbs
      | some dom =>
          obtain ⟨-, above⟩ := idom_spec consistent found
          simp only [found, Bool.or_eq_true, beq_iff_eq] at climbs
          rcases climbs with rfl | later
          · exact above
          · exact (ih later).trans above

theorem dominates_spec {a b : IrBlockId} (dominates : (compute function).dominates a b = true) :
    BlockDominates function a b := by
  simp only [DominatorTree.dominates, Bool.or_eq_true, beq_iff_eq] at dominates
  rcases dominates with (rfl | climbs) | isEntry
  · exact Graph.Dominates.refl _
  · exact climbsTo_spec consistent climbs
  · rw [isEntry, entry_compute]
    exact Graph.Dominates.entry_left _

end Sound

/-- The entry has no immediate dominator. -/
theorem idom_entry : (compute function).idom.get? function.cfg.entryBlock = none := by
  cases found : (compute function).idom.get? function.cfg.entryBlock with
  | none => rfl
  | some dom =>
      obtain ⟨index, _, inner, -, atIndex, -⟩ := finalIdom_spec (idom_compute found)
      obtain ⟨rest, first⟩ : ∃ rest, reversePostorder function.cfg function.cfg.entryBlock =
          function.cfg.entryBlock :: rest := rpo_head rfl
      have distinct : (reversePostorder function.cfg function.cfg.entryBlock).Nodup :=
        rpo_nodup rfl
      obtain ⟨inside, isEntry⟩ := List.getElem?_eq_some_iff.mp atIndex
      have nonempty : 0 < (reversePostorder function.cfg function.cfg.entryBlock).length := by omega
      have atStart : (reversePostorder function.cfg function.cfg.entryBlock)[0] =
          function.cfg.entryBlock := by simp [first]
      exact absurd (distinct.getElem_inj_iff.mp (isEntry.trans atStart.symm)) inner

theorem children_of_addChild (entries : List (IrBlockId × IrBlockId))
    (children : OrdMap IrBlockId (List IrBlockId)) (parent : IrBlockId) :
    ((entries.foldl addChild children).get? parent).getD [] =
      (children.get? parent).getD [] ++
        (entries.filter fun entry => entry.2 = parent).map Prod.fst := by
  induction entries generalizing children with
  | nil => simp
  | cons entry rest ih =>
      rw [List.foldl_cons, ih, addChild, OrdMap.get?_insert]
      by_cases same : parent = entry.2
      · simp [same]
      · simp [same, Ne.symm same]

theorem mem_childrenOf {idom : OrdMap IrBlockId IrBlockId} {parent child : IrBlockId}
    (member : child ∈ ((childrenOf idom).get? parent).getD []) :
    idom.get? child = some parent := by
  rw [childrenOf, OrdMap.get?_mapValues] at member
  rw [← OrdMap.mem_entries_iff]
  have unsorted : child ∈ ((idom.entries.foldl addChild .empty).get? parent).getD [] := by
    cases found : (idom.entries.foldl addChild .empty).get? parent with
    | none => simp [found] at member
    | some list => simpa [found] using member
  rw [children_of_addChild, OrdMap.get?_empty, Option.getD_none, List.nil_append] at unsorted
  obtain ⟨entry, kept, rfl⟩ := List.mem_map.mp unsorted
  obtain ⟨listed, isParent⟩ := List.mem_filter.mp kept
  rwa [← decide_eq_true_eq.mp isParent]

theorem childrenAt_nodup (function : IrFunction) (parent : IrBlockId) :
    ((compute function).childrenAt parent).Nodup := by
  unfold childrenAt compute
  simp only
  split_ifs
  · exact List.nodup_nil
  · generalize finalIdom _ _ = idom
    rw [childrenOf, OrdMap.get?_mapValues]
    have listed := children_of_addChild idom.entries .empty parent
    rw [OrdMap.get?_empty, Option.getD_none, List.nil_append] at listed
    cases found : (idom.entries.foldl addChild .empty).get? parent with
    | none => exact List.nodup_nil
    | some list =>
        rw [found, Option.getD_some] at listed
        simp only [Option.map_some, Option.getD_some]
        rw [List.nodup_mergeSort, listed]
        exact idom.keys_nodup.sublist (List.filter_sublist.map Prod.fst)

theorem mem_childrenAt {parent child : IrBlockId}
    (member : child ∈ (compute function).childrenAt parent) :
    (compute function).idom.get? child = some parent := by
  unfold childrenAt at member
  unfold compute at member ⊢
  simp only at member ⊢
  split_ifs at member ⊢
  · simp at member
  · exact mem_childrenOf member

end DominatorTree

/-- A path of points visits the blocks of some path of blocks, and has passed
every point of each block but the last. -/
theorem blocks_of_points {path : List Point} {id : IrBlockId} {pc : Nat}
    (walk : EntryPath (Edge function) (entryPoint function) path (id, pc)) :
    ∃ earlier, EntryPath (BlockEdge function) function.cfg.entryBlock (id :: earlier) id ∧
      (∀ before ≤ pc, (id, before) ∈ path) ∧
      ∀ other ∈ earlier, ∃ block, function.getBlock other = some block ∧
        ∀ before ≤ block.instructions.length, (other, before) ∈ path := by
  generalize isPoint : (id, pc) = point at walk
  induction walk generalizing id pc with
  | start =>
      cases isPoint
      refine ⟨[], .start, ?_, by simp⟩
      intro before isStart
      rw [Nat.le_zero.mp isStart]
      exact List.mem_cons_self
  | @step path source target walk along ih =>
      subst isPoint
      cases along with
      | within found inside =>
          obtain ⟨earlier, walk', here, passed⟩ := ih rfl
          refine ⟨earlier, walk', ?_, ?_⟩
          · intro before below
            rcases Nat.lt_or_eq_of_le below with less | same
            · exact List.mem_cons_of_mem _ (here before (Nat.le_of_lt_succ less))
            · rw [same]
              exact List.mem_cons_self
          · intro other member
            obtain ⟨block, found, passedAll⟩ := passed other member
            exact ⟨block, found, fun before below =>
              List.mem_cons_of_mem _ (passedAll before below)⟩
      | @across source _ block atEnd found done successor =>
          obtain ⟨earlier, walk', here, passed⟩ := ih rfl
          refine ⟨source :: earlier, .step walk' ⟨block, found, successor⟩, ?_, ?_⟩
          · intro before isStart
            rw [Nat.le_zero.mp isStart]
            exact List.mem_cons_self
          · intro other member
            rcases List.mem_cons.mp member with rfl | inner
            · exact ⟨block, found, fun before below =>
                List.mem_cons_of_mem _ (here before (below.trans done))⟩
            · obtain ⟨otherBlock, otherFound, passedAll⟩ := passed other inner
              exact ⟨otherBlock, otherFound, fun before below =>
                List.mem_cons_of_mem _ (passedAll before below)⟩

theorem through_block {points : List Point} {id : IrBlockId} {block : IrBasicBlock} {pc : Nat}
    (found : function.getBlock id = some block)
    (reached : EntryPath (Edge function) (entryPoint function) points (id, 0))
    (inside : pc ≤ block.instructions.length) :
    ∃ longer, EntryPath (Edge function) (entryPoint function) longer (id, pc) ∧
      ∀ point ∈ longer, point ∈ points ∨ point.1 = id := by
  induction pc with
  | zero => exact ⟨points, reached, fun point member => Or.inl member⟩
  | succ pc ih =>
      obtain ⟨longer, before, within⟩ := ih (Nat.le_of_succ_le inside)
      refine ⟨(id, pc + 1) :: longer, .step before (.within found inside), ?_⟩
      intro point member
      rcases List.mem_cons.mp member with rfl | earlier
      · exact Or.inr rfl
      · exact within point earlier

theorem points_of_blocks {path : List IrBlockId} {id : IrBlockId}
    (walk : EntryPath (BlockEdge function) function.cfg.entryBlock path id) :
    ∃ points, EntryPath (Edge function) (entryPoint function) points (id, 0) ∧
      ∀ point ∈ points, point.1 ∈ path := by
  induction walk with
  | start => exact ⟨[entryPoint function], .start, by simp [entryPoint]⟩
  | @step path source target _ along ih =>
      obtain ⟨points, reached, within⟩ := ih
      obtain ⟨block, found, successor⟩ := along
      obtain ⟨through, atEnd, inside⟩ := through_block found reached le_rfl
      refine ⟨(target, 0) :: through, .step atEnd (.across found le_rfl successor), ?_⟩
      intro point member
      rcases List.mem_cons.mp member with rfl | earlier
      · exact List.mem_cons_self
      · rcases inside point earlier with before | here
        · exact List.mem_cons_of_mem _ (within point before)
        · rw [here]
          exact List.mem_cons_of_mem _ (within (source, 0) reached.last_mem)

theorem dominates_of_blocks {first second : IrBlockId} {before pc : Nat}
    (dominates : BlockDominates function first second) (different : first ≠ second)
    (inside : ∀ block, function.getBlock first = some block →
      before ≤ block.instructions.length) :
    Ssa.Dominates function (first, before) (second, pc) := by
  intro path walk
  obtain ⟨earlier, walk', -, passed⟩ := blocks_of_points walk
  have member := (List.mem_cons.mp (dominates _ walk')).resolve_left different
  obtain ⟨block, found, passedAll⟩ := passed first member
  exact passedAll before (inside block found)

end Rayzor.Analysis
