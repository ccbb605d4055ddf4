import Rayzor.Analysis.Converged
import Rayzor.Analysis.DominatorTree
import Rayzor.Ssa.Checked

/-!
Contract: the dominator tree of a function is exact.
-/

namespace Rayzor.Analysis

open Ir Library Library.Graph Ssa

namespace DominatorTree

/-- The depths, breadth first from the entry. There is no result when the steps run out. -/
def depthsWithin (tree : DominatorTree) :
    Nat → OrdMap IrBlockId Nat × List IrBlockId → Option (OrdMap IrBlockId Nat)
  | _, (depths, []) => some depths
  | 0, (_, _ :: _) => none
  | fuel + 1, (depths, block :: queue) =>
      (depths.get? block).bind fun depth =>
        tree.depthsWithin fuel ((tree.childrenAt block).foldl
          (fun depths child => depths.insert child (depth + 1)) depths,
          queue ++ tree.childrenAt block)

def depths (tree : DominatorTree) : Option (OrdMap IrBlockId Nat) :=
  tree.depthsWithin (tree.idom.entries.length + 1) (OrdMap.empty.insert tree.entry 0, [tree.entry])

end DominatorTree

/-- `dom` is a strict dominator of the block that every other one dominates. -/
structure ClosestDominator (function : IrFunction) (dom block : IrBlockId) : Prop where
  different : dom ≠ block
  dominates : BlockDominates function dom block
  closest : ∀ other, other ≠ block → BlockDominates function other block →
    BlockDominates function other dom

variable {function : IrFunction}

theorem BlockReachable.of_dominates {a b : IrBlockId} (reachable : BlockReachable function b)
    (dominates : BlockDominates function a b) : BlockReachable function a := by
  obtain ⟨path, walk⟩ := reachable
  exact walk.mem_reachable (dominates path walk)

theorem ClosestDominator.unique {first second block : IrBlockId}
    (reachable : BlockReachable function block) (isFirst : ClosestDominator function first block)
    (isSecond : ClosestDominator function second block) : first = second :=
  Graph.Dominates.antisymm (reachable.of_dominates isSecond.dominates)
    (isSecond.closest first isFirst.different isFirst.dominates)
    (isFirst.closest second isSecond.different isSecond.dominates)

section Order

variable {rpo : List IrBlockId} (isRpo : rpo = reversePostorder function.cfg function.cfg.entryBlock)
include isRpo

theorem reachable_of_mem_rpo {id : IrBlockId} (listed : id ∈ rpo) : BlockReachable function id := by
  have along : ∀ index (inside : index < rpo.length), BlockReachable function rpo[index] := by
    intro index
    induction index using Nat.strong_induction_on with
    | _ index ih =>
        intro inside
        rcases earlier_predecessor isRpo inside with isEntry | ⟨earlier, before, edge⟩
        · rw [isEntry]
          exact Graph.Reachable.start
        · exact (ih earlier before (before.trans inside)).step edge
  obtain ⟨index, inside, rfl⟩ := List.mem_iff_getElem.mp listed
  exact along index inside

theorem idxOf_rpo_eq {index : Nat} (inside : index < rpo.length) {id : IrBlockId}
    (isBlock : rpo[index] = id) : rpo.idxOf id = index := by
  rw [← isBlock]
  exact (rpo_nodup isRpo).idxOf_getElem _ _

variable (consistent : PredecessorsConsistent function)
include consistent

theorem edge_of_dense {a b : Nat}
    (along : Dominators.DenseEdge (densePredecessors function.cfg rpo) a b) :
    ∃ (fromInside : a < rpo.length) (toInside : b < rpo.length),
      BlockEdge function rpo[a] rpo[b] := by
  have inside := Dominators.lt_length_of_edge along
  have toInside : b < rpo.length := by
    rwa [densePredecessors, List.length_map] at inside
  rw [Dominators.DenseEdge, List.getD_eq_getElem _ _ inside] at along
  simp only [densePredecessors, List.getElem_map, List.mem_filterMap] at along
  obtain ⟨pred, isPred, position⟩ := along
  obtain ⟨fromInside, isFrom, -⟩ := List.idxOf?_eq_some_iff.mp position
  refine ⟨fromInside, toInside, ?_⟩
  unfold predecessorsOf at isPred
  cases found : function.cfg.getBlock rpo[b] with
  | none =>
      rw [found] at isPred
      cases isPred
  | some block =>
      rw [found] at isPred
      have edge := consistent.actual found isPred
      rwa [show rpo[a] = pred from isFrom]

theorem block_path {path : List Nat} {node : Nat}
    (walk : EntryPath (Dominators.DenseEdge (densePredecessors function.cfg rpo)) 0 path node) :
    EntryPath (BlockEdge function) function.cfg.entryBlock
      (path.map (rpo.getD · function.cfg.entryBlock)) (rpo.getD node function.cfg.entryBlock) := by
  induction walk with
  | start =>
      obtain ⟨rest, first⟩ := rpo_head isRpo
      rw [List.map_singleton, first, List.getD_cons_zero]
      exact .start
  | @step path a b earlier along ih =>
      obtain ⟨fromInside, toInside, edge⟩ := edge_of_dense isRpo consistent along
      rw [List.map_cons]
      refine .step ih ?_
      rwa [List.getD_eq_getElem _ _ fromInside, List.getD_eq_getElem _ _ toInside]

theorem dense_dominates_iff {a b : IrBlockId} (fromRpo : a ∈ rpo) (toRpo : b ∈ rpo) :
    Dominates (Dominators.DenseEdge (densePredecessors function.cfg rpo)) 0 (rpo.idxOf a)
      (rpo.idxOf b) ↔ BlockDominates function a b := by
  have back : ∀ {id}, id ∈ rpo → rpo.getD (rpo.idxOf id) function.cfg.entryBlock = id := by
    intro id listed
    rw [List.getD_eq_getElem _ _ (List.idxOf_lt_length_of_mem listed), List.getElem_idxOf]
  constructor
  · intro dominates path walk
    obtain ⟨other, member, same⟩ :=
      List.mem_map.mp (dominates _ (dense_path isRpo consistent walk))
    have listed := mem_rpo_of_reachable isRpo (walk.mem_reachable member)
    rwa [← (List.idxOf_inj listed).mp same]
  · intro dominates path walk
    have walk' := block_path isRpo consistent walk
    rw [back toRpo] at walk'
    obtain ⟨index, member, same⟩ := List.mem_map.mp (dominates _ walk')
    obtain ⟨front, walk'', -⟩ := walk.upTo member
    have inside := Dominators.lt_length_of_walk (dense_ordered isRpo consistent) walk''
    rw [densePredecessors, List.length_map] at inside
    rw [List.getD_eq_getElem _ _ inside] at same
    rwa [idxOf_rpo_eq isRpo inside same]

end Order

namespace DominatorTree

theorem finalIdom_of_table {rpo : List IrBlockId} (distinct : rpo.Nodup)
    {table : Dominators.Table} (sameLength : table.length = rpo.length) {index above : Nat}
    (inner : index ≠ 0) (inside : index < rpo.length) (isAbove : table.getD index none = some above)
    (aboveInside : above < rpo.length) :
    (finalIdom rpo table).get? rpo[index] = some rpo[above] := by
  have inTable : index < table.length := sameLength ▸ inside
  rw [List.getD_eq_getElem _ _ inTable] at isAbove
  apply OrdMap.get?_inserted_of_agree
  · intro entry isEntry sameKey
    obtain ⟨⟨value, other⟩, listed, made⟩ := List.mem_filterMap.mp isEntry
    obtain ⟨above', isSome, made⟩ := Option.bind_eq_some_iff.mp made
    obtain ⟨block', atIndex, made⟩ := Option.bind_eq_some_iff.mp made
    obtain ⟨dom', atAbove, made⟩ := Option.map_eq_some_iff.mp made
    subst made
    obtain ⟨otherInside, isOther⟩ := List.getElem?_eq_some_iff.mp atIndex
    have sameIndex : other = index :=
      distinct.getElem_inj_iff.mp (isOther.trans sameKey)
    obtain ⟨position, positionInside, same⟩ := List.mem_iff_getElem.mp listed
    rw [List.getElem_drop, List.getElem_zipIdx] at same
    cases same
    simp only [Nat.zero_add] at sameIndex isSome
    subst sameIndex
    rw [isAbove] at isSome
    cases isSome
    exact (Option.some.inj ((List.getElem?_eq_getElem aboveInside).symm.trans atAbove)).symm
  · refine Or.inr (List.mem_map.mpr ⟨(rpo[index], rpo[above]), ?_, rfl⟩)
    refine List.mem_filterMap.mpr ⟨(some above, index), ?_, ?_⟩
    · refine List.mem_iff_getElem.mpr ⟨index - 1, ?_, ?_⟩
      · rw [List.length_drop, List.length_zipIdx]
        omega
      · rw [List.getElem_drop, List.getElem_zipIdx]
        have moved : 1 + (index - 1) = index := by omega
        simp only [moved, isAbove, Nat.zero_add]
    · simp only [Option.bind_some, List.getElem?_eq_getElem inside,
        List.getElem?_eq_getElem aboveInside, Option.map_some]

section Immediate

variable (consistent : PredecessorsConsistent function)
include consistent

theorem two_blocks {b : IrBlockId} (reachable : BlockReachable function b)
    (inner : b ≠ function.cfg.entryBlock) : ¬function.cfg.blocks.entries.length ≤ 1 := by
  have isKey : ∀ {id block}, function.getBlock id = some block → id ∈ function.cfg.blocks.keys :=
    fun found => (function.cfg.blocks.mem_keys_iff _).mpr ⟨_, found⟩
  have targetKey : ∀ {source target}, BlockEdge function source target →
      target ∈ function.cfg.blocks.keys := by
    intro source target edge
    obtain ⟨block, found, -⟩ := consistent.recorded edge
    exact isKey found
  have entryKey : ∀ {path id}, EntryPath (BlockEdge function) function.cfg.entryBlock path id →
      id = function.cfg.entryBlock ∨ function.cfg.entryBlock ∈ function.cfg.blocks.keys := by
    intro path id walk
    induction walk with
    | start => exact Or.inl rfl
    | step earlier along ih =>
        rcases ih with rfl | listed
        · obtain ⟨block, found, -⟩ := along
          exact Or.inr (isKey found)
        · exact Or.inr listed
  obtain ⟨path, walk⟩ := reachable
  have listed := (entryKey walk).resolve_left inner
  have listed' : b ∈ function.cfg.blocks.keys := by
    cases walk with
    | start => exact absurd rfl inner
    | step _ along => exact targetKey along
  have distinct : [b, function.cfg.entryBlock].Nodup := by simp [inner]
  have within : [b, function.cfg.entryBlock] ⊆ function.cfg.blocks.keys := by
    intro id member
    rcases List.mem_cons.mp member with rfl | isEntry
    · exact listed'
    · rwa [List.mem_singleton.mp isEntry]
  have long := (distinct.subperm within).length_le
  unfold OrdMap.keys at long
  rw [List.length_map] at long
  simp only [List.length_cons, List.length_nil] at long
  omega

theorem closest_of_reachable {b : IrBlockId} (reachable : BlockReachable function b)
    (inner : b ≠ function.cfg.entryBlock) :
    ∃ dom, (compute function).idom.get? b = some dom ∧ ClosestDominator function dom b := by
  have distinct : (reversePostorder function.cfg function.cfg.entryBlock).Nodup := rpo_nodup rfl
  have listed : b ∈ reversePostorder function.cfg function.cfg.entryBlock :=
    mem_rpo_of_reachable rfl reachable
  have ordered := dense_ordered rfl consistent
  have sameLength : (densePredecessors function.cfg
      (reversePostorder function.cfg function.cfg.entryBlock)).length =
        (reversePostorder function.cfg function.cfg.entryBlock).length := List.length_map _
  obtain ⟨reached, enough, sound⟩ := Dominators.solve_sound ordered
  have positive : 0 < reached := Nat.lt_of_lt_of_le ordered.nonempty enough
  have inside := List.idxOf_lt_length_of_mem listed
  have isBlock := List.getElem_idxOf inside
  have notFirst : (reversePostorder function.cfg function.cfg.entryBlock).idxOf b ≠ 0 := by
    intro isZero
    obtain ⟨rest, first⟩ : ∃ rest, reversePostorder function.cfg function.cfg.entryBlock =
      function.cfg.entryBlock :: rest := rpo_head rfl
    have atZero : (reversePostorder function.cfg function.cfg.entryBlock)[0]? = some b := by
      rw [← isZero, List.getElem?_eq_getElem inside, isBlock]
    rw [first, List.getElem?_cons_zero] at atZero
    exact inner (Option.some.inj atZero).symm
  obtain ⟨above, isAbove⟩ := Option.isSome_iff_exists.mp
    (sound.known _ (sameLength ▸ inside) (Or.inr positive))
  have aboveInside := (sound.descending notFirst isAbove).1.trans inside
  have found := finalIdom_of_table distinct (sound.length.trans sameLength) notFirst inside isAbove
    aboveInside
  rw [isBlock] at found
  have isIdom : (compute function).idom.get? b =
      some (reversePostorder function.cfg function.cfg.entryBlock)[above] := by
    unfold compute
    simp only
    rw [if_neg (two_blocks consistent reachable inner)]
    exact found
  obtain ⟨different, dominates⟩ := idom_spec consistent isIdom
  refine ⟨_, isIdom, different, dominates, fun other differs dominates' => ?_⟩
  have otherListed : other ∈ reversePostorder function.cfg function.cfg.entryBlock :=
    mem_rpo_of_reachable rfl (reachable.of_dominates dominates')
  have ancestor := (Dominators.ancestor_iff_dominates ordered (sameLength ▸ inside)).mpr
    ((dense_dominates_iff rfl consistent otherListed listed).mpr dominates')
  have aboveListed := List.getElem_mem aboveInside
  rw [← dense_dominates_iff rfl consistent otherListed aboveListed,
    idxOf_rpo_eq rfl aboveInside rfl]
  rcases ancestor.strict with same | ⟨next, immediate, rest⟩
  · exact absurd ((List.idxOf_inj listed).mp same).symm differs
  · rw [isAbove] at immediate
    cases immediate
    exact Dominators.solve_dominates ordered rest

theorem idom_eq_some_iff {b dom : IrBlockId} :
    (compute function).idom.get? b = some dom ↔
      BlockReachable function b ∧ b ≠ function.cfg.entryBlock ∧
        ClosestDominator function dom b := by
  constructor
  · intro found
    have inner : b ≠ function.cfg.entryBlock := by
      rintro rfl
      rw [idom_entry] at found
      cases found
    obtain ⟨index, above, -, -, atIndex, -⟩ := finalIdom_spec (idom_compute found)
    have reachable : BlockReachable function b :=
      reachable_of_mem_rpo rfl (List.mem_of_getElem? atIndex)
    obtain ⟨dom', found', closest⟩ := closest_of_reachable consistent reachable inner
    rw [found] at found'
    cases found'
    exact ⟨reachable, inner, closest⟩
  · rintro ⟨reachable, inner, closest⟩
    obtain ⟨dom', found, closest'⟩ := closest_of_reachable consistent reachable inner
    rw [found, closest'.unique reachable closest]

theorem mem_idom_keys {b : IrBlockId} : b ∈ (compute function).idom.keys ↔
    BlockReachable function b ∧ b ≠ function.cfg.entryBlock := by
  rw [OrdMap.mem_keys_iff]
  constructor
  · rintro ⟨dom, found⟩
    obtain ⟨reachable, inner, -⟩ := (idom_eq_some_iff consistent).mp found
    exact ⟨reachable, inner⟩
  · rintro ⟨reachable, inner⟩
    obtain ⟨dom, found, -⟩ := closest_of_reachable consistent reachable inner
    exact ⟨dom, found⟩

theorem length_le_of_reachable {blocks : List IrBlockId} (distinct : blocks.Nodup)
    (reachable : ∀ b ∈ blocks, BlockReachable function b) :
    blocks.length ≤ (compute function).idom.entries.length + 1 := by
  have within : blocks ⊆ function.cfg.entryBlock :: (compute function).idom.keys := by
    intro b member
    by_cases isEntry : b = function.cfg.entryBlock
    · exact isEntry ▸ List.mem_cons_self
    · exact List.mem_cons_of_mem _ ((mem_idom_keys consistent).mpr ⟨reachable b member, isEntry⟩)
  have short := (distinct.subperm within).length_le
  rwa [List.length_cons, OrdMap.keys, List.length_map] at short

theorem climbsTo_of_dominates {a : IrBlockId} (fuel : Nat) : ∀ (passed : List IrBlockId)
    (b : IrBlockId), (b :: passed).Nodup → (∀ other ∈ b :: passed, BlockReachable function other) →
    (∀ other ∈ passed, other ≠ b ∧ BlockDominates function b other) →
    (compute function).idom.entries.length + 1 ≤ fuel + passed.length →
    a ≠ b → BlockDominates function a b → (compute function).climbsTo a fuel b = true := by
  induction fuel with
  | zero =>
      intro passed b distinct reachable _ enough _ _
      have short := length_le_of_reachable consistent distinct reachable
      rw [List.length_cons] at short
      omega
  | succ fuel ih =>
      intro passed b distinct reachable above enough different dominates
      have bReachable := reachable b List.mem_cons_self
      have inner : b ≠ function.cfg.entryBlock := by
        rintro rfl
        have member := dominates _ .start
        exact different (List.mem_singleton.mp member)
      obtain ⟨dom, found, closest⟩ := closest_of_reachable consistent bReachable inner
      unfold climbsTo
      rw [found]
      simp only [Bool.or_eq_true, beq_iff_eq]
      by_cases same : dom = a
      · exact Or.inl same
      · have domReachable := bReachable.of_dominates closest.dominates
        have aboveAll : ∀ other ∈ b :: passed, other ≠ dom ∧ BlockDominates function dom other := by
          intro other member
          rcases List.mem_cons.mp member with rfl | later
          · exact ⟨closest.different.symm, closest.dominates⟩
          · obtain ⟨differs, dominates'⟩ := above other later
            refine ⟨?_, closest.dominates.trans dominates'⟩
            rintro rfl
            exact closest.different
              (Graph.Dominates.antisymm bReachable closest.dominates dominates')
        refine Or.inr (ih (b :: passed) dom ?_ ?_ aboveAll ?_ (Ne.symm same)
          (closest.closest a different dominates))
        · exact List.nodup_cons.mpr ⟨fun member => (aboveAll dom member).1 rfl, distinct⟩
        · intro other member
          rcases List.mem_cons.mp member with rfl | later
          · exact domReachable
          · exact reachable other later
        · rw [List.length_cons]
          omega

theorem dominates_iff {a b : IrBlockId} (reachable : BlockReachable function b) :
    (compute function).dominates a b = true ↔ BlockDominates function a b := by
  refine ⟨dominates_spec consistent, fun dominates => ?_⟩
  simp only [DominatorTree.dominates, Bool.or_eq_true, beq_iff_eq]
  by_cases same : a = b
  · exact Or.inl (Or.inl same)
  · refine Or.inl (Or.inr (climbsTo_of_dominates consistent _ [] b (List.nodup_singleton b) ?_
      (by simp) (Nat.le_refl _) same dominates))
    intro other member
    rwa [List.mem_singleton.mp member]

omit consistent in
theorem mem_childrenAt_iff {parent child : IrBlockId} :
    child ∈ (compute function).childrenAt parent ↔
      (compute function).idom.get? child = some parent := by
  refine ⟨mem_childrenAt, fun found => ?_⟩
  unfold childrenAt
  unfold compute at found ⊢
  simp only at found ⊢
  split_ifs at found ⊢
  · cases found
  · generalize finalIdom _ _ = idom at found ⊢
    have listed := children_of_addChild idom.entries .empty parent
    rw [OrdMap.get?_empty, Option.getD_none, List.nil_append] at listed
    have member : child ∈ (idom.entries.filter fun entry => entry.2 = parent).map Prod.fst :=
      List.mem_map.mpr ⟨(child, parent), List.mem_filter.mpr
        ⟨(idom.mem_entries_iff child parent).mpr found, decide_eq_true rfl⟩, rfl⟩
    rw [← listed] at member
    simp only [childrenOf, OrdMap.get?_mapValues]
    cases isList : (idom.entries.foldl addChild .empty).get? parent with
    | none =>
        rw [isList] at member
        cases member
    | some list =>
        rw [isList] at member
        simpa using member

def Level (function : IrFunction) (block : IrBlockId) (depth : Nat) : Prop :=
  ∃ dominators : List IrBlockId, dominators.Nodup ∧ dominators.length = depth ∧
    ∀ other, other ∈ dominators ↔ other ≠ block ∧ BlockDominates function other block

omit consistent in
theorem level_entry : Level function function.cfg.entryBlock 0 := by
  refine ⟨[], List.nodup_nil, rfl, fun other => ?_⟩
  constructor
  · exact fun member => absurd member List.not_mem_nil
  · rintro ⟨different, dominates⟩
    exact absurd (List.mem_singleton.mp (dominates _ .start)) different

omit consistent in
theorem Level.child {parent child : IrBlockId} {depth : Nat}
    (reachable : BlockReachable function child) (closest : ClosestDominator function parent child)
    (level : Level function parent depth) : Level function child (depth + 1) := by
  obtain ⟨dominators, distinct, isLength, mem_iff⟩ := level
  refine ⟨parent :: dominators, ?_, by rw [List.length_cons, isLength], fun other => ?_⟩
  · exact List.nodup_cons.mpr ⟨fun member => ((mem_iff parent).mp member).1 rfl, distinct⟩
  · rw [List.mem_cons, mem_iff]
    constructor
    · rintro (rfl | ⟨different, dominates⟩)
      · exact ⟨closest.different, closest.dominates⟩
      · refine ⟨?_, dominates.trans closest.dominates⟩
        rintro rfl
        exact closest.different
          (Graph.Dominates.antisymm reachable closest.dominates dominates)
    · rintro ⟨different, dominates⟩
      by_cases same : other = parent
      · exact Or.inl same
      · exact Or.inr ⟨same, closest.closest other different dominates⟩

omit consistent in
theorem Level.ncard {block : IrBlockId} {depth : Nat} (level : Level function block depth) :
    {other | other ≠ block ∧ BlockDominates function other block}.ncard = depth := by
  obtain ⟨dominators, distinct, isLength, mem_iff⟩ := level
  have sameSet : {other | other ≠ block ∧ BlockDominates function other block} =
      (dominators.toFinset : Set IrBlockId) := by
    ext other
    rw [Set.mem_setOf_eq, ← mem_iff, List.coe_toFinset, Set.mem_setOf_eq]
  rw [sameSet, Set.ncard_coe_finset, List.toFinset_card_of_nodup distinct, isLength]

/-- The search between two blocks: every block met has its level, and the children of the blocks
that came out are met. -/
structure Deepening (function : IrFunction) (popped queue : List IrBlockId)
    (depths : OrdMap IrBlockId Nat) : Prop where
  once : (popped ++ queue).Nodup
  met : ∀ block ∈ popped ++ queue, BlockReachable function block ∧
    ∃ depth, depths.get? block = some depth ∧ Level function block depth
  entered : function.cfg.entryBlock ∈ popped ++ queue
  closed : ∀ parent ∈ popped, ∀ child, (compute function).idom.get? child = some parent →
    child ∈ popped ++ queue
  parented : ∀ child ∈ popped ++ queue, child = function.cfg.entryBlock ∨
    ∃ parent ∈ popped, (compute function).idom.get? child = some parent

theorem deepening_start : Deepening function [] [function.cfg.entryBlock]
    (OrdMap.empty.insert function.cfg.entryBlock 0) := by
  refine ⟨List.nodup_singleton _, ?_, List.mem_singleton_self _, ?_, ?_⟩
  · intro block member
    rw [List.mem_singleton.mp member]
    exact ⟨Graph.Reachable.start, 0, OrdMap.get?_insert_self _ _ _, level_entry⟩
  · exact fun parent isPopped => absurd isPopped List.not_mem_nil
  · exact fun child member => Or.inl (List.mem_singleton.mp member)

omit consistent in
theorem get?_foldl_insert (children : List IrBlockId) (depth : Nat) (other : IrBlockId) :
    ∀ depths : OrdMap IrBlockId Nat,
      (children.foldl (fun depths child => depths.insert child depth) depths).get? other =
        if other ∈ children then some depth else depths.get? other := by
  induction children with
  | nil => exact fun _ => rfl
  | cons child children ih =>
      intro depths
      rw [List.foldl_cons, ih, OrdMap.get?_insert]
      by_cases same : other = child <;> simp [same]

/-- The step lemma: a block comes out and its children are met. -/
theorem Deepening.step {popped queue : List IrBlockId} {depths : OrdMap IrBlockId Nat}
    {block : IrBlockId} {depth : Nat}
    (deepening : Deepening function popped (block :: queue) depths)
    (isDepth : depths.get? block = some depth) :
    Deepening function (popped ++ [block]) (queue ++ (compute function).childrenAt block)
      (((compute function).childrenAt block).foldl
        (fun depths child => depths.insert child (depth + 1)) depths) := by
  have isMet : block ∈ popped ++ block :: queue :=
    List.mem_append_right _ List.mem_cons_self
  have isNew : ∀ child ∈ (compute function).childrenAt block, child ∉ popped ++ block :: queue := by
    intro child isChild member
    have found := mem_childrenAt_iff.mp isChild
    rcases deepening.parented child member with rfl | ⟨parent, isPopped, found'⟩
    · rw [idom_entry] at found
      cases found
    · rw [found] at found'
      cases found'
      have apart := (List.nodup_append.mp deepening.once).2.2 block isPopped block
        List.mem_cons_self
      exact apart rfl
  have shape : popped ++ [block] ++ (queue ++ (compute function).childrenAt block) =
      popped ++ block :: queue ++ (compute function).childrenAt block := by simp
  have level : Level function block depth := by
    obtain ⟨-, depth', found, level⟩ := deepening.met block isMet
    rw [isDepth] at found
    cases found
    exact level
  refine ⟨?_, ?_, ?_, ?_, ?_⟩
  · rw [shape]
    refine List.Nodup.append deepening.once (childrenAt_nodup function block) ?_
    exact fun child member isChild => isNew child isChild member
  · intro other member
    rw [shape] at member
    rw [get?_foldl_insert]
    rcases List.mem_append.mp member with before | isChild
    · rw [if_neg fun isChild => isNew other isChild before]
      exact deepening.met other before
    · rw [if_pos isChild]
      obtain ⟨reachable, -, closest⟩ :=
        (idom_eq_some_iff consistent).mp (mem_childrenAt_iff.mp isChild)
      exact ⟨reachable, _, rfl, level.child reachable closest⟩
  · rw [shape]
    exact List.mem_append_left _ deepening.entered
  · intro parent isPopped child found
    rw [shape]
    rcases List.mem_append.mp isPopped with before | isLast
    · exact List.mem_append_left _ (deepening.closed parent before child found)
    · rw [List.mem_singleton.mp isLast] at found
      exact List.mem_append_right _ (mem_childrenAt_iff.mpr found)
  · intro child member
    rw [shape] at member
    rcases List.mem_append.mp member with before | isChild
    · rcases deepening.parented child before with isEntry | ⟨parent, isPopped, found⟩
      · exact Or.inl isEntry
      · exact Or.inr ⟨parent, List.mem_append_left _ isPopped, found⟩
    · exact Or.inr ⟨block, List.mem_append_right _ (List.mem_singleton_self block),
        mem_childrenAt_iff.mp isChild⟩

/-- The run lemma: the search ends with every block met. -/
theorem depthsWithin_spec (fuel : Nat) : ∀ {popped queue : List IrBlockId}
    {depths : OrdMap IrBlockId Nat}, Deepening function popped queue depths →
    (compute function).idom.entries.length + 1 ≤ fuel + popped.length →
    ∃ final popped', (compute function).depthsWithin fuel (depths, queue) = some final ∧
      Deepening function popped' [] final := by
  induction fuel with
  | zero =>
      intro popped queue depths deepening enough
      cases queue with
      | nil => exact ⟨depths, popped, rfl, deepening⟩
      | cons block queue =>
          have short := length_le_of_reachable consistent deepening.once
            fun other member => (deepening.met other member).1
          rw [List.length_append, List.length_cons] at short
          omega
  | succ fuel ih =>
      intro popped queue depths deepening enough
      cases queue with
      | nil => exact ⟨depths, popped, rfl, deepening⟩
      | cons block queue =>
          obtain ⟨-, depth, isDepth, -⟩ :=
            deepening.met block (List.mem_append_right _ List.mem_cons_self)
          obtain ⟨final, popped', ended, finished⟩ :=
            ih (deepening.step consistent isDepth)
              (by rw [List.length_append, List.length_singleton]; omega)
          refine ⟨final, popped', ?_, finished⟩
          unfold depthsWithin
          rw [isDepth, Option.bind_some]
          exact ended

theorem Deepening.complete {popped : List IrBlockId} {depths : OrdMap IrBlockId Nat}
    (deepening : Deepening function popped [] depths) {block : IrBlockId}
    (reachable : BlockReachable function block) : block ∈ popped := by
  have closed := deepening.closed
  have entered := deepening.entered
  rw [List.append_nil] at closed entered
  -- By the number of blocks on a path to the block: its immediate dominator lies on it before.
  obtain ⟨path, walk⟩ := reachable
  induction size : path.length using Nat.strong_induction_on generalizing path block with
  | _ length ih =>
      by_cases isEntry : block = function.cfg.entryBlock
      · exact isEntry ▸ entered
      · obtain ⟨dom, found, closest⟩ :=
          closest_of_reachable consistent walk.reachable isEntry
        obtain ⟨front, walk', shorter, -⟩ :=
          walk.upTo_shorter (closest.dominates path walk) closest.different
        exact closed dom (ih front.length (size ▸ shorter) front walk' rfl)
          block found

theorem depths_spec : ∃ depths, (compute function).depths = some depths ∧
    ∀ block, BlockReachable function block → ∃ depth, depths.get? block = some depth ∧
      Level function block depth := by
  obtain ⟨final, popped, ended, finished⟩ := depthsWithin_spec consistent
    ((compute function).idom.entries.length + 1) (deepening_start consistent)
    (Nat.le_add_right _ _)
  refine ⟨final, ?_, fun block reachable => ?_⟩
  · unfold depths
    rw [entry_compute]
    exact ended
  · have met := finished.met block
      (List.mem_append_left _ (finished.complete consistent reachable))
    exact met.2

end Immediate

structure Exact (function : IrFunction) (tree : DominatorTree) : Prop where
  dominates_iff : ∀ {a b}, BlockReachable function a → BlockReachable function b →
    (tree.dominates a b = true ↔ BlockDominates function a b)
  idom_iff : ∀ {b}, BlockReachable function b → ∀ dom,
    tree.idom.get? b = some dom ↔ ClosestDominator function dom b
  idom_unique : ∀ {b}, BlockReachable function b → b ≠ function.cfg.entryBlock →
    ∃! dom, ClosestDominator function dom b
  children_iff : ∀ parent child,
    child ∈ tree.childrenAt parent ↔ tree.idom.get? child = some parent
  childrenOnce : ∀ parent, (tree.childrenAt parent).Nodup
  depth_eq : ∃ depths, tree.depths = some depths ∧ ∀ b, BlockReachable function b →
    depths.get? b = some {other | other ≠ b ∧ BlockDominates function other b}.ncard

/-- The tree of a function with consistent predecessor lists is exact, and neither the cap on the
sweeps nor the one on the steps of an intersection cuts its computation short. -/
theorem compute_exact (consistent : PredecessorsConsistent function) :
    Exact function (compute function) ∧
      Dominators.solveUncut (densePredecessors function.cfg
          (reversePostorder function.cfg function.cfg.entryBlock)) =
        some (Dominators.solve (densePredecessors function.cfg
          (reversePostorder function.cfg function.cfg.entryBlock))) := by
  refine ⟨⟨?_, ?_, ?_, ?_, childrenAt_nodup function, ?_⟩,
    (Dominators.solveUncut_eq (dense_ordered rfl consistent)).1⟩
  · exact fun _ reachable => DominatorTree.dominates_iff consistent reachable
  · intro b reachable dom
    rw [idom_eq_some_iff consistent]
    refine ⟨fun all => all.2.2, fun closest => ⟨reachable, ?_, closest⟩⟩
    rintro rfl
    exact closest.different (List.mem_singleton.mp (closest.dominates _ .start))
  · intro b reachable inner
    obtain ⟨dom, -, closest⟩ := closest_of_reachable consistent reachable inner
    exact ⟨dom, closest, fun other isClosest => isClosest.unique reachable closest⟩
  · exact fun parent child => mem_childrenAt_iff
  · obtain ⟨depths, isDepths, levels⟩ := depths_spec consistent
    refine ⟨depths, isDepths, fun b reachable => ?_⟩
    obtain ⟨depth, found, level⟩ := levels b reachable
    rw [found, level.ncard]

/-- A loop with two entries, `5` and `9`, one block that loops to itself and one that nothing
reaches. -/
def irreducible : IrFunction where
  name := "irreducible"
  signature :=
    { parameters := [], returnType := .void, callingConvention := .haxe, typeParams := [],
      usesSret := false }
  cfg :=
    { blocks := OrdMap.ofList [
        (0, { terminator := .condBranch 0 9 5 }),
        (5, { terminator := .branch 9, predecessors := [0, 9, 30] }),
        (9, { terminator := .condBranch 0 5 20, predecessors := [0, 5] }),
        (20, { terminator := .condBranch 0 20 21, predecessors := [9, 20] }),
        (21, { terminator := .ret none, predecessors := [20] }),
        (30, { terminator := .branch 5 })],
      entryBlock := 0, nextBlockId := 31 }
  locals := .empty
  registerTypes := .empty
  externalLinkage := false
  nextRegId := 1
  typeParamTagFixups := []
  typeParamMetadataFixups := []

theorem irreducible_exact : PredecessorsConsistent irreducible ∧
    Exact irreducible (compute irreducible) ∧
    (compute irreducible).idom.get? 5 = some 0 ∧ (compute irreducible).idom.get? 9 = some 0 ∧
    (compute irreducible).idom.get? 20 = some 9 :=
  ⟨predecessorsConsistent_of_checked rfl,
    (compute_exact (predecessorsConsistent_of_checked rfl)).1, rfl, rfl, rfl⟩

end DominatorTree

end Rayzor.Analysis
