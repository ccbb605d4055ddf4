import Rayzor.Library.Chains
import Rayzor.Ssa.Shortened
import Rayzor.Passes.ValueNumbering

/-!
Contract: keeping one load of a global that nothing in the module stores, and
reading its register where others were loaded again.

Owns: the pass, which loads it merges, and exactly when what it leaves is still
in order and every dropped load would have given what its replacement holds.
-/

namespace Rayzor.Passes.GlobalLoadCaching

open Ir Interp Library Ssa Analysis

/-! ### `GlobalLoadCachingPass` -/

/-- A load of a global: where it stands and the register it fills. -/
structure GlobalLoad where
  block : IrBlockId
  index : Nat
  dest : IrId

def storedGlobal : IrInstruction → Option IrGlobalId
  | .storeGlobal globalId _ => some globalId
  | _ => none

/-- `module_stored_globals`: never stored to means never stored anywhere. -/
def storedGlobals (module : IrModule) : List IrGlobalId :=
  module.functions.values.flatMap fun function =>
    function.cfg.blocks.values.flatMap fun block => block.instructions.filterMap storedGlobal

def isCall : IrInstruction → Bool
  | .callDirect _ _ _ _ | .callIndirect _ _ _ _ => true
  | _ => false

def callIndices (block : IrBasicBlock) : List Nat :=
  block.instructions.zipIdx.filterMap fun placed =>
    if isCall placed.1 then some placed.2 else none

def callFreeFunction (function : IrFunction) : Bool :=
  function.cfg.blocks.values.all fun block => (callIndices block).isEmpty

def loadAt (id : IrBlockId) (placed : IrInstruction × Nat) : Option (IrGlobalId × GlobalLoad) :=
  match placed.1 with
  | .loadGlobal dest globalId _ => some (globalId, ⟨id, placed.2, dest⟩)
  | _ => none

/-- Every load of a global that may be merged, in block order. -/
def candidateLoads (module : IrModule) (function : IrFunction) :
    List (IrGlobalId × GlobalLoad) :=
  (function.cfg.blocks.entries.flatMap fun entry =>
    entry.2.instructions.zipIdx.filterMap (loadAt entry.1)).filter
      fun load => load.1 ∉ storedGlobals module

def addLoad (loads : OrdMap IrGlobalId (List GlobalLoad)) (load : IrGlobalId × GlobalLoad) :
    OrdMap IrGlobalId (List GlobalLoad) :=
  loads.insert load.1 ((loads.get? load.1).getD [] ++ [load.2])

def globalLoads (module : IrModule) (function : IrFunction) :
    OrdMap IrGlobalId (List GlobalLoad) :=
  (candidateLoads module function).foldl addLoad .empty

def usesIn (block : IrBasicBlock) : List IrId :=
  block.instructions.flatMap (·.uses) ++ block.terminator.reads ++
    block.phiNodes.flatMap fun phi => phi.incoming.map Prod.snd

/-- Without calls anywhere any two loads will do; else they must share a block
and have no call between them. -/
def reachableWithoutCall (function : IrFunction) (a b : GlobalLoad) : Bool :=
  callFreeFunction function ||
    (a.block == b.block &&
      match function.getBlock a.block with
      | some block => !(callIndices block).any fun call =>
          decide (min a.index b.index < call) && decide (call < max a.index b.index)
      | none => true)

def dominatesUses (function : IrFunction) (tree : DominatorTree) (definer : IrBlockId)
    (reg : IrId) : Bool :=
  function.cfg.blocks.entries.all fun entry =>
    !(usesIn entry.2).contains reg || tree.dominates definer entry.1

/-- Compare one load with those after it. -/
def mergeInto (function : IrFunction) (tree : DominatorTree) (a : GlobalLoad) :
    List GlobalLoad → OrdMap IrId IrId → OrdMap IrId IrId
  | [], replacements => replacements
  | b :: rest, replacements =>
      if replacements.contains b.dest then mergeInto function tree a rest replacements
      else if reachableWithoutCall function a b = false then
        mergeInto function tree a rest replacements
      else if tree.dominates a.block b.block then
        if dominatesUses function tree a.block b.dest then
          mergeInto function tree a rest (replacements.insert b.dest a.dest)
        else mergeInto function tree a rest replacements
      else if tree.dominates b.block a.block ∧ dominatesUses function tree b.block a.dest then
        replacements.insert a.dest b.dest
      else mergeInto function tree a rest replacements

def mergeLoads (function : IrFunction) (tree : DominatorTree) :
    List GlobalLoad → OrdMap IrId IrId → OrdMap IrId IrId
  | [], replacements => replacements
  | a :: rest, replacements =>
      mergeLoads function tree rest
        (if replacements.contains a.dest then replacements
        else mergeInto function tree a rest replacements)

def mergedLoads (module : IrModule) (function : IrFunction) : OrdMap IrId IrId :=
  (globalLoads module function).entries.foldl (fun replacements entry =>
    if entry.2.length ≤ 1 then replacements
    else mergeLoads function (DominatorTree.compute function) entry.2 replacements) .empty

def maxIterations : Nat := 100

def allReplacements (module : IrModule) (function : IrFunction) : OrdMap IrId IrId :=
  Chains.close maxIterations (mergedLoads module function)

def isLive (replacements : OrdMap IrId IrId) (inst : IrInstruction) : Bool :=
  match inst.dest with
  | some dest => !replacements.contains dest
  | none => true

def cacheBlock (replacements : OrdMap IrId IrId) (block : IrBasicBlock) : IrBasicBlock :=
  { block with
    instructions := (block.instructions.map (·.replaceUses replacements)).filter
      (isLive replacements)
    terminator := block.terminator.replaceUses replacements
    phiNodes := block.phiNodes.map (ValueNumbering.replaceIncoming replacements) }

def cacheGlobalLoads (module : IrModule) (function : IrFunction) : IrFunction :=
  if (mergedLoads module function).entries.isEmpty then function
  else
    { function with
      cfg := { function.cfg with
        blocks := function.cfg.blocks.mapValues fun _ =>
          cacheBlock (allReplacements module function) } }

/-! ### What a merged load may rely on -/

structure LoadsAt (function : IrFunction) (reg : IrId) (globalId : IrGlobalId) (ty : IrType)
    (point : Point) : Prop where
  here : ∃ block, function.getBlock point.1 = some block ∧
    block.instructions[point.2]? = some (.loadGlobal reg globalId ty)

/-- No call stands strictly between two places of a block. -/
def CallFreeBetween (function : IrFunction) (id : IrBlockId) (first last : Nat) : Prop :=
  ∀ block, function.getBlock id = some block → ∀ (between : Nat) inst, first < between →
    between < last → block.instructions[between]? = some inst → isCall inst = false

/-- The one register was loaded on every path to the load of the other, and no
call can have come between. -/
structure Reuses (module : IrModule) (function : IrFunction) (removed kept : IrId) : Prop where
  loads : ∃ globalId ty ty' point point', globalId ∉ storedGlobals module ∧
    LoadsAt function removed globalId ty point ∧ LoadsAt function kept globalId ty' point' ∧
    Dominates function (point'.1, point'.2 + 1) point ∧
    (callFreeFunction function = true ∨
      point'.1 = point.1 ∧ point'.2 < point.2 ∧
        CallFreeBetween function point.1 point'.2 point.2)

section Reuse

variable {module : IrModule} {function : IrFunction} {reg : IrId} {globalId : IrGlobalId}
  {ty : IrType} {point : Point}

theorem LoadsAt.defines (loads : LoadsAt function reg globalId ty point) :
    DefinesAt function reg (point.1, point.2 + 1) := by
  obtain ⟨block, found, here⟩ := loads.here
  exact .instruction found here rfl

/-- A register is loaded in one place only. -/
theorem LoadsAt.unique (ssa : SsaForm function) {globalId' : IrGlobalId} {ty' : IrType}
    {point' : Point} (loads : LoadsAt function reg globalId ty point)
    (loads' : LoadsAt function reg globalId' ty' point') :
    globalId = globalId' ∧ ty = ty' ∧ point = point' := by
  have same := ssa.single loads.defines loads'.defines
  simp only [Prod.mk.injEq, Nat.add_right_cancel_iff] at same
  have samePoint : point = point' := Prod.ext same.1 same.2
  subst samePoint
  obtain ⟨block, found, here⟩ := loads.here
  obtain ⟨block', found', here'⟩ := loads'.here
  cases found.symm.trans found'
  cases here.symm.trans here'
  exact ⟨rfl, rfl, rfl⟩

theorem Reuses.trans (ssa : SsaForm function) {first second third : IrId}
    (reuses : Reuses module function first second) (reuses' : Reuses module function second third) :
    Reuses module function first third := by
  obtain ⟨globalId, ty, ty', point, point', notStored, atFirst, atSecond, above, between⟩ :=
    reuses.loads
  obtain ⟨globalId', ty'', ty''', point'', point''', -, atSecond', atThird, above', between'⟩ :=
    reuses'.loads
  obtain ⟨rfl, rfl, rfl⟩ := atSecond.unique ssa atSecond'
  refine ⟨globalId, ty, ty''', point, point''', notStored, atFirst, atThird, ?_, ?_⟩
  · exact (above'.trans (dominates_next point'.1 point'.2)).trans above
  · rcases between with free | ⟨sameBlock, order, calls⟩
    · exact Or.inl free
    rcases between' with free | ⟨sameBlock', order', calls'⟩
    · exact Or.inl free
    refine Or.inr ⟨sameBlock'.trans sameBlock, order'.trans order, ?_⟩
    intro block found middle inst afterFirst beforeLast here
    obtain ⟨own, foundOwn, hereOwn⟩ := atSecond.here
    rw [← sameBlock] at found
    cases found.symm.trans foundOwn
    rcases Nat.lt_trichotomy middle point'.2 with earlier | same | later
    · exact calls' block found middle inst afterFirst earlier here
    · subst same
      cases hereOwn.symm.trans here
      rfl
    · exact calls block (sameBlock ▸ found) middle inst later beforeLast here

end Reuse

/-! ### The pairs the pass merges -/

def Before (a b : GlobalLoad) : Prop := a.block < b.block ∨ a.block = b.block ∧ a.index < b.index

def Listed (module : IrModule) (function : IrFunction) (globalId : IrGlobalId)
    (load : GlobalLoad) : Prop :=
  globalId ∉ storedGlobals module ∧
    ∃ ty, LoadsAt function load.dest globalId ty (load.block, load.index)

/-- Merged pairs are reuses, and no key leads back to itself. -/
structure Merged (module : IrModule) (function : IrFunction) (replacements : OrdMap IrId IrId) :
    Prop where
  reuses : ∀ {removed kept}, replacements.get? removed = some kept →
    Reuses module function removed kept
  ranked : ∃ rank, Chains.Ranked replacements rank

section Merging

variable {module : IrModule} {function : IrFunction} {globalId : IrGlobalId} {a b : GlobalLoad}
  {replacements : OrdMap IrId IrId}

theorem get?_eq_none_of_contains {reg : IrId} (absent : ¬replacements.contains reg = true) :
    replacements.get? reg = none := by
  by_contra present
  exact absent ((OrdMap.contains_iff _ _).mpr (Option.ne_none_iff_exists'.mp present))

theorem Merged.empty : Merged module function .empty where
  reuses found := by cases found
  ranked := ⟨_, Chains.Ranked.empty⟩

theorem Merged.insert (merged : Merged module function replacements) {removed kept : IrId}
    (newKey : replacements.get? removed = none) (noKey : replacements.get? kept = none)
    (different : kept ≠ removed) (reuses : Reuses module function removed kept) :
    Merged module function (replacements.insert removed kept) where
  reuses := by
    intro other value found
    rw [OrdMap.get?_insert] at found
    split_ifs at found with same
    · cases found
      exact same ▸ reuses
    · exact merged.reuses found
  ranked := by
    obtain ⟨rank, ranked⟩ := merged.ranked
    exact ⟨_, ranked.insert newKey noKey different⟩

theorem callIndices_spec {block : IrBasicBlock} {pc : Nat} {inst : IrInstruction}
    (here : block.instructions[pc]? = some inst) (call : isCall inst = true) :
    pc ∈ callIndices block := by
  refine List.mem_filterMap.mpr ⟨(inst, pc), List.mem_zipIdx_iff_getElem?.mpr here, ?_⟩
  simp [call]

theorem callFree_of_reachable (order : a.index < b.index)
    (reachable : reachableWithoutCall function a b = true) :
    callFreeFunction function = true ∨
      a.block = b.block ∧ CallFreeBetween function b.block a.index b.index := by
  simp only [reachableWithoutCall, Bool.or_eq_true, Bool.and_eq_true, beq_iff_eq] at reachable
  refine reachable.imp_right fun ⟨sameBlock, noCalls⟩ => ⟨sameBlock, ?_⟩
  intro block found between inst afterFirst beforeLast here
  rw [sameBlock, found] at noCalls
  by_contra call
  rw [Bool.not_eq_false] at call
  have listed := callIndices_spec here call
  simp only [Bool.not_eq_true', List.any_eq_false, Bool.and_eq_true, decide_eq_true_eq,
    Nat.min_eq_left order.le, Nat.max_eq_right order.le] at noCalls
  exact noCalls between listed ⟨afterFirst, beforeLast⟩

theorem Listed.inside {globalId : IrGlobalId} {load : GlobalLoad}
    (listed : Listed module function globalId load) {block : IrBasicBlock}
    (found : function.getBlock load.block = some block) :
    load.index + 1 ≤ block.instructions.length := by
  obtain ⟨-, ty, loads⟩ := listed
  obtain ⟨own, foundOwn, here⟩ := loads.here
  cases found.symm.trans foundOwn
  exact (List.getElem?_eq_some_iff.mp here).1

variable (ssa : SsaForm function) (consistent : PredecessorsConsistent function)

include consistent in
/-- The later load reads the earlier register if its block is dominated. -/
theorem reuses_earlier (listedA : Listed module function globalId a)
    (listedB : Listed module function globalId b) (before : Before a b)
    (reachable : reachableWithoutCall function a b = true)
    (dominates : (DominatorTree.compute function).dominates a.block b.block = true) :
    Reuses module function b.dest a.dest := by
  obtain ⟨notStored, tyA, atA⟩ := id listedA
  obtain ⟨-, tyB, atB⟩ := listedB
  by_cases sameBlock : a.block = b.block
  · have order : a.index < b.index := by
      rcases before with below | ⟨-, below⟩
      · exact absurd (sameBlock ▸ below) (lt_irrefl _)
      · exact below
    refine ⟨globalId, tyB, tyA, _, _, notStored, atB, atA, ?_, ?_⟩
    · simp only [sameBlock]
      exact dominates_later order
    · exact (callFree_of_reachable order reachable).imp_right fun ⟨same, free⟩ =>
        ⟨same, order, free⟩
  · refine ⟨globalId, tyB, tyA, _, _, notStored, atB, atA, ?_, Or.inl ?_⟩
    · exact dominates_of_blocks (DominatorTree.dominates_spec consistent dominates) sameBlock
        fun block found => listedA.inside found
    · simp only [reachableWithoutCall, Bool.or_eq_true, Bool.and_eq_true, beq_iff_eq] at reachable
      exact reachable.resolve_right fun both => sameBlock both.1

include consistent in
/-- The other way round blocks differ, so there are no calls at all. -/
theorem reuses_later (listedA : Listed module function globalId a)
    (listedB : Listed module function globalId b)
    (reachable : reachableWithoutCall function a b = true)
    (notAbove : ¬(DominatorTree.compute function).dominates a.block b.block = true)
    (dominates : (DominatorTree.compute function).dominates b.block a.block = true) :
    Reuses module function a.dest b.dest := by
  obtain ⟨notStored, tyA, atA⟩ := listedA
  obtain ⟨-, tyB, atB⟩ := id listedB
  have different : b.block ≠ a.block := by
    intro same
    refine notAbove ?_
    simp [DominatorTree.dominates, same]
  refine ⟨globalId, tyA, tyB, _, _, notStored, atA, atB, ?_, Or.inl ?_⟩
  · exact dominates_of_blocks (DominatorTree.dominates_spec consistent dominates) different
      fun block found => listedB.inside found
  · simp only [reachableWithoutCall, Bool.or_eq_true, Bool.and_eq_true, beq_iff_eq] at reachable
    exact reachable.resolve_right fun both => different both.1.symm

include ssa in
theorem dest_ne_of_before (listedA : Listed module function globalId a)
    (listedB : Listed module function globalId b) (before : Before a b) : a.dest ≠ b.dest := by
  intro same
  obtain ⟨-, tyA, atA⟩ := listedA
  obtain ⟨-, tyB, atB⟩ := listedB
  rw [same] at atA
  obtain ⟨-, -, samePlace⟩ := atA.unique ssa atB
  simp only [Prod.mk.injEq] at samePlace
  rcases before with below | ⟨-, below⟩
  · exact absurd (samePlace.1 ▸ below) (lt_irrefl _)
  · exact absurd (samePlace.2 ▸ below) (lt_irrefl _)

include ssa consistent in
theorem Merged.mergeInto (merged : Merged module function replacements)
    (fresh : replacements.get? a.dest = none) (listedA : Listed module function globalId a)
    {rest : List GlobalLoad} (later : ∀ b ∈ rest, Listed module function globalId b ∧ Before a b) :
    Merged module function (mergeInto function (DominatorTree.compute function) a rest
      replacements) := by
  induction rest generalizing replacements with
  | nil => exact merged
  | cons b rest ih =>
      obtain ⟨⟨listedB, before⟩, others⟩ := List.forall_mem_cons.mp later
      have different := dest_ne_of_before ssa listedA listedB before
      unfold GlobalLoadCaching.mergeInto
      split_ifs with known unreachable above safe below
      · exact ih merged fresh others
      · exact ih merged fresh others
      · have reachable : reachableWithoutCall function a b = true := by simpa using unreachable
        have noKey := get?_eq_none_of_contains known
        refine ih (merged.insert noKey fresh different
          (reuses_earlier consistent listedA listedB before reachable above)) ?_ others
        rw [OrdMap.get?_insert_of_ne _ _ different, fresh]
      · exact ih merged fresh others
      · have reachable : reachableWithoutCall function a b = true := by simpa using unreachable
        exact merged.insert fresh (get?_eq_none_of_contains known) (Ne.symm different)
          (reuses_later consistent listedA listedB reachable above below.1)
      · exact ih merged fresh others

include ssa consistent in
theorem Merged.mergeLoads (merged : Merged module function replacements)
    (globalId : IrGlobalId) {loads : List GlobalLoad} (ordered : loads.Pairwise Before)
    (listed : ∀ load ∈ loads, Listed module function globalId load) :
    Merged module function (mergeLoads function (DominatorTree.compute function) loads
      replacements) := by
  induction loads generalizing replacements with
  | nil => exact merged
  | cons a rest ih =>
      obtain ⟨before, orderedRest⟩ := List.pairwise_cons.mp ordered
      obtain ⟨listedA, listedRest⟩ := List.forall_mem_cons.mp listed
      unfold GlobalLoadCaching.mergeLoads
      refine ih ?_ orderedRest listedRest
      split_ifs with known
      · exact merged
      · exact merged.mergeInto ssa consistent (get?_eq_none_of_contains known) listedA
          fun b member => ⟨listedRest b member, before b member⟩

theorem get?_foldl_addLoad (loads : List (IrGlobalId × GlobalLoad))
    (collected : OrdMap IrGlobalId (List GlobalLoad)) (globalId : IrGlobalId) :
    ((loads.foldl addLoad collected).get? globalId).getD [] =
      (collected.get? globalId).getD [] ++
        (loads.filter fun load => load.1 = globalId).map Prod.snd := by
  induction loads generalizing collected with
  | nil => simp
  | cons load rest ih =>
      rw [List.foldl_cons, ih, addLoad, OrdMap.get?_insert]
      by_cases same : globalId = load.1
      · simp [same]
      · simp [same, Ne.symm same]

theorem loadAt_eq_some {id : IrBlockId} {placed : IrInstruction × Nat}
    {load : IrGlobalId × GlobalLoad} (loads : loadAt id placed = some load) :
    ∃ dest ty, placed.1 = .loadGlobal dest load.1 ty ∧ load.2 = ⟨id, placed.2, dest⟩ := by
  obtain ⟨inst, pc⟩ := placed
  cases inst
  case loadGlobal dest globalId ty =>
    cases loads
    exact ⟨dest, ty, rfl, rfl⟩
  all_goals cases loads

theorem listed_of_candidate {load : IrGlobalId × GlobalLoad}
    (member : load ∈ candidateLoads module function) :
    Listed module function load.1 load.2 := by
  obtain ⟨inFunction, notStored⟩ := List.mem_filter.mp member
  obtain ⟨entry, inEntries, inBlock⟩ := List.mem_flatMap.mp inFunction
  obtain ⟨placed, isPlaced, loads⟩ := List.mem_filterMap.mp inBlock
  obtain ⟨dest, ty, isLoad, isPlace⟩ := loadAt_eq_some loads
  refine ⟨by simpa using notStored, ty, entry.2, ?_, ?_⟩
  · rw [isPlace]
    exact getBlock_eq_some_iff.mpr inEntries
  · rw [isPlace, ← isLoad]
    exact List.mem_zipIdx_iff_getElem?.mp isPlaced

theorem candidateLoads_ordered (module : IrModule) (function : IrFunction) :
    (candidateLoads module function).Pairwise fun a b => Before a.2 b.2 := by
  refine List.Pairwise.filter _ (List.pairwise_flatMap.mpr ⟨?_, ?_⟩)
  · intro entry _
    refine List.pairwise_filterMap.mpr ?_
    have increasing : entry.2.instructions.zipIdx.Pairwise fun a b => a.2 < b.2 := by
      rw [List.pairwise_iff_getElem]
      intro first second insideFirst insideSecond order
      simpa using order
    refine increasing.imp fun {x y} order a loadsA b loadsB => ?_
    obtain ⟨_, _, -, placeA⟩ := loadAt_eq_some loadsA
    obtain ⟨_, _, -, placeB⟩ := loadAt_eq_some loadsB
    rw [placeA, placeB]
    exact Or.inr ⟨rfl, order⟩
  · refine function.cfg.blocks.sorted.imp fun {x y} order a inX b inY => ?_
    obtain ⟨_, -, loadsA⟩ := List.mem_filterMap.mp inX
    obtain ⟨_, -, loadsB⟩ := List.mem_filterMap.mp inY
    obtain ⟨_, _, -, placeA⟩ := loadAt_eq_some loadsA
    obtain ⟨_, _, -, placeB⟩ := loadAt_eq_some loadsB
    rw [placeA, placeB]
    exact Or.inl order

include ssa consistent in
theorem mergedLoads_merged : Merged module function (mergedLoads module function) := by
  unfold mergedLoads
  have collected : ∀ entry ∈ (globalLoads module function).entries,
      entry.2 = ((candidateLoads module function).filter fun load => load.1 = entry.1).map
        Prod.snd := by
    intro entry member
    have found := (OrdMap.mem_entries_iff _ entry.1 entry.2).mp member
    have listed := get?_foldl_addLoad (candidateLoads module function) .empty entry.1
    rw [show (candidateLoads module function).foldl addLoad .empty =
      globalLoads module function from rfl, found] at listed
    simpa using listed
  generalize (globalLoads module function).entries = entries at collected
  have all : ∀ replacements, Merged module function replacements →
      Merged module function (entries.foldl (fun replacements entry =>
        if entry.2.length ≤ 1 then replacements
        else mergeLoads function (DominatorTree.compute function) entry.2 replacements)
          replacements) := by
    induction entries with
    | nil => exact fun _ merged => merged
    | cons entry rest ih =>
        obtain ⟨own, others⟩ := List.forall_mem_cons.mp collected
        intro replacements merged
        rw [List.foldl_cons]
        refine ih others _ ?_
        split_ifs
        · exact merged
        · refine merged.mergeLoads ssa consistent entry.1 ?_ ?_
          · rw [own, List.pairwise_map]
            exact (candidateLoads_ordered module function).filter _
          · intro load member
            rw [own] at member
            obtain ⟨candidate, kept, rfl⟩ := List.mem_map.mp member
            obtain ⟨isCandidate, same⟩ := List.mem_filter.mp kept
            rw [← decide_eq_true_eq.mp same]
            exact listed_of_candidate isCandidate
  exact all .empty .empty

end Merging

/-! ### What the pass leaves -/

section Result

variable {module : IrModule} {function : IrFunction}

/-- Registers are numbered in 32 bits. -/
def NarrowIds (function : IrFunction) : Prop :=
  ∀ reg point, DefinesAt function reg point → reg < 2 ^ 32

theorem Reuses.defines {removed kept : IrId} (reuses : Reuses module function removed kept) :
    ∃ point, DefinesAt function removed point := by
  obtain ⟨_, _, _, _, _, -, atRemoved, -⟩ := reuses.loads
  exact ⟨_, atRemoved.defines⟩

theorem Reuses.of_leads (ssa : SsaForm function) {replacements : OrdMap IrId IrId}
    (reuses : ∀ {removed kept}, replacements.get? removed = some kept →
      Reuses module function removed kept)
    {count : Nat} {removed kept : IrId} (leads : Chains.Leads replacements count removed kept) :
    Reuses module function removed kept := by
  induction leads with
  | one found => exact reuses found
  | more found _ ih => exact (reuses found).trans ssa ih

theorem allReplacements_closed (module : IrModule) (ssa : SsaForm function)
    (consistent : PredecessorsConsistent function) (narrow : NarrowIds function) :
    (∀ reg, (allReplacements module function).get? reg = none ↔
        (mergedLoads module function).get? reg = none) ∧
      ∀ {removed kept}, (allReplacements module function).get? removed = some kept →
        (mergedLoads module function).get? kept = none ∧
          ∃ count, Chains.Leads (mergedLoads module function) count removed kept := by
  have merged : Merged module function (mergedLoads module function) :=
    mergedLoads_merged ssa consistent
  obtain ⟨rank, ranked⟩ := merged.ranked
  have small : (mergedLoads module function).keys ⊆ List.range (2 ^ 32) := by
    intro reg member
    obtain ⟨kept, found⟩ := (OrdMap.mem_keys_iff _ reg).mp member
    obtain ⟨point, defines⟩ := (merged.reuses found).defines
    exact List.mem_range.mpr (narrow reg point defines)
  have bound := ((OrdMap.keys_nodup _).subperm small).length_le
  rw [OrdMap.keys, List.length_map, List.length_range] at bound
  exact Chains.close_spec ranked
    (lt_of_le_of_lt bound (Nat.pow_lt_pow_right (by omega) (by decide)))

/-- After the closure each dropped register is replaced by one that stays. -/
theorem allReplacements_spec (ssa : SsaForm function) (consistent : PredecessorsConsistent function)
    (narrow : NarrowIds function) {removed kept : IrId}
    (replaced : (allReplacements module function).get? removed = some kept) :
    (allReplacements module function).get? kept = none ∧ Reuses module function removed kept := by
  obtain ⟨sameKeys, closed⟩ := allReplacements_closed module ssa consistent narrow
  obtain ⟨ended, count, leads⟩ := closed replaced
  exact ⟨(sameKeys kept).mpr ended,
    Reuses.of_leads ssa (mergedLoads_merged ssa consistent).reuses leads⟩

/-! ### When the dropped loads would have given the same -/

section Values

variable {E : Type} {host : Host E} {frame : Frame} {world : World E} {func : IrFunctionId}

theorem clobbers_eq_false (inModule : module.functions.get? func = some function)
    {globalId : IrGlobalId} (notStored : globalId ∉ storedGlobals module) {id : IrBlockId}
    {block : IrBasicBlock} (found : function.getBlock id = some block) {inst : IrInstruction}
    (member : inst ∈ block.instructions) (noCall : isCall inst = false) :
    clobbers globalId inst = false := by
  cases inst
  case storeGlobal other value =>
    have stored : other ∈ storedGlobals module := by
      refine List.mem_flatMap.mpr ⟨function, (OrdMap.mem_values_iff _ _).mpr ⟨func, inModule⟩, ?_⟩
      refine List.mem_flatMap.mpr ⟨block, (OrdMap.mem_values_iff _ _).mpr ⟨id, found⟩, ?_⟩
      exact List.mem_filterMap.mpr ⟨_, member, rfl⟩
    simp only [clobbers, beq_eq_false_iff_ne]
    rintro rfl
    exact notStored stored
  case callDirect => cases noCall
  case callIndirect => cases noCall
  all_goals rfl

theorem isCall_of_callFree (free : callFreeFunction function = true) {id : IrBlockId}
    {block : IrBasicBlock} (found : function.getBlock id = some block) {pc : Nat}
    {inst : IrInstruction} (here : block.instructions[pc]? = some inst) : isCall inst = false := by
  have none := List.all_eq_true.mp free block ((OrdMap.mem_values_iff _ _).mpr ⟨id, found⟩)
  by_contra call
  rw [Bool.not_eq_false] at call
  have listed := callIndices_spec here call
  rw [List.isEmpty_iff.mp none] at listed
  cases listed

def NeverClobbered (function : IrFunction) (globalId : IrGlobalId) : Prop :=
  ∀ {id : IrBlockId} {block : IrBasicBlock} {pc : Nat} {inst : IrInstruction},
    function.getBlock id = some block → block.instructions[pc]? = some inst →
    clobbers globalId inst = false

theorem globals_kept {globalId : IrGlobalId} (kept : NeverClobbered function globalId)
    {state : State E} (runs : Runs module host function frame world state) :
    state.world.globals globalId = world.globals globalId := by
  refine Runs.induction (fun state =>
    state.world.globals globalId = world.globals globalId) runs rfl ?_
  intro state next _ same stepped
  cases stepped with
  | executed found here ran =>
      obtain ⟨result, evaluated, rfl⟩ := execute_eq_ok.mp ran
      rw [← same]
      exact eval_globals evaluated (kept found here)
  | moved => exact same

/-- The register of a load in a function without calls holds the global's value
wherever it is available. -/
theorem held_of_callFree (ssa : SsaForm function) {reg : IrId} {globalId : IrGlobalId}
    {ty : IrType} {point : Point} (loads : LoadsAt function reg globalId ty point)
    (kept : NeverClobbered function globalId) {state : State E}
    (runs : Runs module host function frame world state)
    (dominates : Dominates function (point.1, point.2 + 1) (pointOf state)) :
    state.frame.regs reg =
      ⟨loadGlobalMt ty, canon (state.world.globals globalId) (loadGlobalMt ty)⟩ := by
  rw [globals_kept kept runs]
  refine ssa.holds_where_dominated [reg] (fun regs => regs reg =
    ⟨loadGlobalMt ty, canon (world.globals globalId) (loadGlobalMt ty)⟩) ?_ ?_
    (inner_of_succ _ _) ?_ runs dominates
  · intro regs regs' agree holds
    rw [agree reg (List.mem_singleton_self reg), holds]
  · intro other member
    rw [List.mem_singleton.mp member]
    exact Available.here loads.defines
  · intro state next runs stepped arrived
    obtain ⟨before, block, inst, found, here, ran⟩ := executed_of_point stepped arrived
    obtain ⟨own, foundOwn, hereOwn⟩ := loads.here
    cases found.symm.trans foundOwn
    cases here.symm.trans hereOwn
    obtain ⟨result, evaluated, after⟩ := execute_eq_ok.mp ran
    simp only [eval, computing_eq_ok] at evaluated
    obtain ⟨word, computed, same⟩ := evaluated
    cases computed
    simp only [Prod.mk.injEq] at same
    obtain ⟨rfl, -⟩ := same
    rw [after, regs_after_some _ _ rfl, Regs.set_same, globals_kept kept runs]

/-- When a dropped load is about to run, its replacement holds what the global
gives at the replacement's type. -/
theorem Reuses.held (ssa : SsaForm function)
    (inModule : module.functions.get? func = some function) {removed kept : IrId}
    (reuses : Reuses module function removed kept) {state : State E}
    (runs : Runs module host function frame world state) {globalId globalId' : IrGlobalId}
    {ty ty' : IrType} {point' : Point}
    (atRemoved : LoadsAt function removed globalId ty (pointOf state))
    (atKept : LoadsAt function kept globalId' ty' point') :
    state.frame.regs kept =
      ⟨loadGlobalMt ty', canon (state.world.globals globalId) (loadGlobalMt ty')⟩ := by
  obtain ⟨_, _, _, _, _, notStored, atRemoved', atKept', above, between⟩ := reuses.loads
  obtain ⟨rfl, rfl, rfl⟩ := atRemoved.unique ssa atRemoved'
  obtain ⟨rfl, rfl, rfl⟩ := atKept.unique ssa atKept'
  rcases between with free | ⟨sameBlock, order, calls⟩
  · refine held_of_callFree ssa atKept (fun found here => ?_) runs above
    exact clobbers_eq_false inModule notStored found (List.mem_of_getElem? here)
      (isCall_of_callFree free found here)
  · obtain ⟨block, found, here⟩ := atKept.here
    rw [sameBlock] at found
    refine ValueNumbering.loaded_undisturbed ssa found here ?_ runs rfl order (Nat.le_refl _)
    intro other foundOther middle inst afterFirst beforeLast hereMiddle
    exact clobbers_eq_false inModule notStored foundOther (List.mem_of_getElem? hereMiddle)
      (calls other foundOther middle inst afterFirst beforeLast hereMiddle)

end Values

/-! ### When it is in order -/

/-- Each dropped load would have given what its replacement holds. -/
def LoadsAgree {E : Type} (module : IrModule) (host : Host E) (function : IrFunction)
    (removed kept : IrId) : Prop :=
  ∀ {frame world state globalId ty}, Runs module host function frame world state →
    LoadsAt function removed globalId ty (pointOf state) →
    state.frame.regs kept =
      ⟨loadGlobalMt ty, canon (state.world.globals globalId) (loadGlobalMt ty)⟩

/-- The code the pass leaves defines every register before it is used, and its
replacements hold what the loads it dropped would have given. -/
structure CachesSoundly {E : Type} (module : IrModule) (host : Host E) (function : IrFunction) :
    Prop where
  ordered : DefinedBeforeUse (cacheGlobalLoads module function)
  agree : ∀ {removed kept}, (allReplacements module function).get? removed = some kept →
    LoadsAgree module host function removed kept

/-- No reached instruction of a kind whose operands are never rewritten reads a
dropped register. -/
def NoDroppedOperandKept (module : IrModule) (function : IrFunction) : Prop :=
  ∀ {id block pc inst}, function.getBlock id = some block →
    block.instructions[pc]? = some inst → Reachable function (id, pc) →
    inst.operandsKept = true → ∀ reg ∈ inst.uses,
      (allReplacements module function).get? reg = none

/-- A dropped load that runs is declared with a type of the same machine type as
the load that replaces it. -/
def LoadTypesAgree {E : Type} (module : IrModule) (host : Host E) (function : IrFunction) : Prop :=
  ∀ {removed kept}, (allReplacements module function).get? removed = some kept →
    ∀ {frame world state globalId ty globalId' ty' point'},
      Runs (E := E) module host function frame world state →
      LoadsAt function removed globalId ty (pointOf state) →
      LoadsAt function kept globalId' ty' point' → loadGlobalMt ty = loadGlobalMt ty'

section Order

variable {replacements : OrdMap IrId IrId}

theorem dest_of_writes {inst : IrInstruction} {reg : IrId} (writes : inst.writes = some reg) :
    inst.dest = some reg := by
  cases inst
  all_goals first
    | exact writes
    | cases writes

theorem getBlock_cached (merges : (mergedLoads module function).entries.isEmpty = false)
    (id : IrBlockId) : (cacheGlobalLoads module function).getBlock id =
      (function.getBlock id).map (cacheBlock (allReplacements module function)) := by
  unfold cacheGlobalLoads
  rw [merges]
  exact OrdMap.get?_mapValues _ _ id

/-- The pass drops the loads of replaced registers and rewrites the rest. -/
theorem cached_shortened (merges : (mergedLoads module function).entries.isEmpty = false) :
    Shortened function (cacheGlobalLoads module function)
      (fun inst => isLive (allReplacements module function)
        (inst.replaceUses (allReplacements module function)))
      (·.replaceUses (allReplacements module function))
      (fun reg => (allReplacements module function).get? reg ≠ none) := by
  have perBlock : ∀ block, ShortenedBlock
      (fun inst => isLive (allReplacements module function)
        (inst.replaceUses (allReplacements module function)))
      (·.replaceUses (allReplacements module function)) block
      (cacheBlock (allReplacements module function) block) := by
    intro block
    refine ⟨?_, ?_, ?_⟩
    · simp only [cacheBlock, List.filter_map]
      rfl
    · simp only [IrBasicBlock.successors, cacheBlock, IrTerminator.replaceUses,
        IrTerminator.successors_renameUses]
    · simp only [cacheBlock, List.map_map]
      rfl
  refine ⟨?_, ?_, ?_, ?_, ?_, ?_⟩
  · simp only [cacheGlobalLoads, merges]
    rfl
  · simp only [cacheGlobalLoads, merges]
    rfl
  · intro id block found
    exact ⟨_, by rw [getBlock_cached merges, found, Option.map_some], perBlock block⟩
  · intro id block' found
    rw [getBlock_cached merges] at found
    obtain ⟨block, foundOld, rfl⟩ := Option.map_eq_some_iff.mp found
    exact ⟨block, foundOld, perBlock block⟩
  · exact fun inst => IrInstruction.writes_renameUses _ inst
  · intro id block inst reg _ _ notLive writes
    have dest : (inst.replaceUses (allReplacements module function)).dest = some reg :=
      dest_of_writes ((IrInstruction.writes_renameUses _ inst).trans writes)
    rw [isLive, dest] at notLive
    simp only [Bool.not_eq_false'] at notLive
    obtain ⟨kept, found⟩ := (OrdMap.contains_iff _ _).mp notLive
    simp [found]

/-- Dropped registers are read nowhere else. -/
theorem resolve_stays (ssa : SsaForm function) (consistent : PredecessorsConsistent function)
    (narrow : NarrowIds function) (reg : IrId) :
    (allReplacements module function).get?
      (ValueNumbering.resolve (allReplacements module function) reg) = none := by
  unfold ValueNumbering.resolve
  cases replaced : (allReplacements module function).get? reg with
  | none => exact replaced
  | some kept => exact (allReplacements_spec ssa consistent narrow replaced).1

theorem resolve_available (ssa : SsaForm function) (consistent : PredecessorsConsistent function)
    (narrow : NarrowIds function) {reg : IrId} {place : Point}
    (available : Available function reg place) :
    Available function (ValueNumbering.resolve (allReplacements module function) reg) place := by
  unfold ValueNumbering.resolve
  cases replaced : (allReplacements module function).get? reg with
  | none => exact available
  | some kept =>
      obtain ⟨_, _, _, point, point', -, atRemoved, atKept, above, -⟩ :=
        (allReplacements_spec ssa consistent narrow replaced).2.loads
      have below := ssa.dominates atRemoved.defines available
      exact Available.of_dominates atKept.defines
        ((above.trans (dominates_next point.1 point.2)).trans below)

/-- The instruction that defines a dropped register is dropped. -/
theorem not_live_of_writes (ssa : SsaForm function)
    (consistent : PredecessorsConsistent function) (narrow : NarrowIds function) {removed kept : IrId}
    (replaced : (allReplacements module function).get? removed = some kept) {id : IrBlockId}
    {block : IrBasicBlock} {pc : Nat} {inst : IrInstruction}
    (found : function.getBlock id = some block) (here : block.instructions[pc]? = some inst)
    (writes : inst.writes = some removed) :
    isLive (allReplacements module function)
        (inst.replaceUses (allReplacements module function)) = false ∧
      inst.operandsKept = false := by
  obtain ⟨_, _, _, point, _, -, atRemoved, -⟩ :=
    (allReplacements_spec ssa consistent narrow replaced).2.loads
  have same := ssa.single (.instruction found here writes) atRemoved.defines
  simp only [Prod.mk.injEq, Nat.add_right_cancel_iff] at same
  obtain ⟨own, foundOwn, hereOwn⟩ := atRemoved.here
  rw [← same.1] at foundOwn
  rw [← same.2] at hereOwn
  cases found.symm.trans foundOwn
  cases here.symm.trans hereOwn
  refine ⟨?_, rfl⟩
  have contained := (OrdMap.contains_iff (allReplacements module function) removed).mpr
    ⟨kept, replaced⟩
  simp [isLive, IrInstruction.replaceUses, IrInstruction.renameUses, IrInstruction.dest, contained]

theorem ordered_of_noDroppedOperand (ssa : SsaForm function)
    (consistent : PredecessorsConsistent function) (narrow : NarrowIds function)
    (merges : (mergedLoads module function).entries.isEmpty = false)
    (rewritten : NoDroppedOperandKept module function) :
    DefinedBeforeUse (cacheGlobalLoads module function) := by
  have shortened := cached_shortened merges
  have stays : ∀ {reg : IrId} {id : IrBlockId} {block : IrBasicBlock} {pc : Nat},
      function.getBlock id = some block → pc ≤ block.instructions.length →
      Available function reg (id, pc) → Available (cacheGlobalLoads module function)
        (ValueNumbering.resolve (allReplacements module function) reg)
        (id, shortenedPc (fun inst => isLive (allReplacements module function)
          (inst.replaceUses (allReplacements module function))) block pc) :=
    fun found inside available => shortened.available found inside
      (fun _ dropped => dropped (resolve_stays ssa consistent narrow _))
      (resolve_available ssa consistent narrow available)
  constructor
  · intro id block' place inst' found' here' reg used
    obtain ⟨block, found, same⟩ := shortened.blockOf found'
    obtain ⟨pc, inst, here, -, rfl, rfl⟩ := same.of_at here'
    have inside := (List.getElem?_eq_some_iff.mp here).1.le
    cases kept : inst.operandsKept with
    | true =>
        rw [IrInstruction.replaceUses, IrInstruction.uses_renameUses_of_kept _ _ kept] at used
        exact shortened.available found inside
          (fun reachable dropped => dropped (rewritten found here reachable kept reg used))
          (ssa.operands found here reg used)
    | false =>
        rw [IrInstruction.replaceUses, IrInstruction.uses_renameUses _ _ kept] at used
        obtain ⟨old, oldUsed, rfl⟩ := List.mem_map.mp used
        exact stays found inside (ssa.operands found here old oldUsed)
  · intro id block' found' reg read
    obtain ⟨block, found, same⟩ := shortened.blockOf found'
    rw [getBlock_cached merges, found, Option.map_some, Option.some.injEq] at found'
    rw [same.length]
    subst found'
    rw [cacheBlock, IrTerminator.replaceUses, IrTerminator.reads_renameUses] at read
    obtain ⟨old, oldRead, rfl⟩ := List.mem_map.mp read
    exact stays found (Nat.le_refl _) (ssa.terminator found old oldRead)
  · intro id block' source source' phi' reg found' member incoming foundSource'
    obtain ⟨sourceBlock, foundSource, same⟩ := shortened.blockOf foundSource'
    rw [getBlock_cached merges] at found'
    obtain ⟨block, found, rfl⟩ := Option.map_eq_some_iff.mp found'
    obtain ⟨phi, oldMember, rfl⟩ := List.mem_map.mp member
    obtain ⟨pair, oldIncoming, samePair⟩ := List.mem_map.mp incoming
    cases samePair
    rw [same.length]
    exact stays foundSource (Nat.le_refl _) (ssa.phis found oldMember oldIncoming foundSource)

theorem noDroppedOperand_of_ordered (ssa : SsaForm function)
    (consistent : PredecessorsConsistent function) (narrow : NarrowIds function)
    (merges : (mergedLoads module function).entries.isEmpty = false)
    (ordered : DefinedBeforeUse (cacheGlobalLoads module function)) :
    NoDroppedOperandKept module function := by
  have shortened := cached_shortened merges
  intro id block pc inst found here reachable kept reg used
  by_contra dropped
  obtain ⟨replacement, replaced⟩ := Option.ne_none_iff_exists'.mp dropped
  have unchanged : inst.replaceUses (allReplacements module function) = inst :=
    IrInstruction.uses_renameUses_of_kept _ _ kept
  have live : isLive (allReplacements module function)
      (inst.replaceUses (allReplacements module function)) = true := by
    by_contra notLive
    rw [Bool.not_eq_true, unchanged, isLive] at notLive
    cases dest : inst.dest with
    | none => simp [dest] at notLive
    | some own =>
        simp only [dest, Bool.not_eq_false'] at notLive
        obtain ⟨other, replacedOwn⟩ := (OrdMap.contains_iff _ _).mp notLive
        have writes : inst.writes = some own := by
          cases inst
          all_goals first
            | exact dest
            | cases kept
        have notKept := (not_live_of_writes ssa consistent narrow replacedOwn found here writes).2
        rw [kept] at notKept
        cases notKept
  obtain ⟨block', found', same⟩ := shortened.block found
  have here' := same.at here live
  obtain ⟨path, walk⟩ := shortened.reachable reachable found
  obtain ⟨point, -, defines⟩ := ordered.operands found' here' reg (by rwa [unchanged]) path walk
  obtain ⟨_, _, _, origin, _, -, atRemoved, -⟩ :=
    (allReplacements_spec ssa consistent narrow replaced).2.loads
  rcases shortened.definesAt defines with atStart | ⟨other, pc', inst', foundOther, hereOther, live', writes⟩
  · have same := ssa.single atStart atRemoved.defines
    simp only [Prod.mk.injEq] at same
    exact absurd same.2 (Nat.succ_ne_zero _).symm
  · have notLive :=
      (not_live_of_writes ssa consistent narrow replaced foundOther hereOther writes).1
    rw [live'] at notLive
    cases notLive

end Order

end Result

/-! ### Two loads of one global, the second read by `inst` -/

def twoLoads (inst : IrInstruction) : IrFunction where
  name := "loads"
  signature :=
    { parameters := [], returnType := .i64, callingConvention := .haxe, typeParams := [],
      usesSret := false }
  cfg :=
    { blocks := OrdMap.ofList [(0,
        { instructions := [.loadGlobal 0 7 .i64, .loadGlobal 1 7 .i64, inst],
          terminator := .ret (some 2) })],
      entryBlock := 0, nextBlockId := 1 }
  locals := .empty
  registerTypes := OrdMap.ofList [(0, .i64), (1, .i64), (2, .i64)]
  externalLinkage := false
  nextRegId := 3
  typeParamTagFixups := []
  typeParamMetadataFixups := []

def moduleOf (function : IrFunction) : IrModule where
  functions := OrdMap.ofList [(0, function)]
  externFunctions := .empty

theorem twoLoads_block {inst : IrInstruction} {id : IrBlockId} {block : IrBasicBlock}
    (found : (twoLoads inst).getBlock id = some block) :
    id = 0 ∧ block = { instructions := [.loadGlobal 0 7 .i64, .loadGlobal 1 7 .i64, inst],
                       terminator := .ret (some 2) } := by
  have member := getBlock_eq_some_iff.mp found
  have only : (twoLoads inst).cfg.blocks.entries = [(0,
      { instructions := [.loadGlobal 0 7 .i64, .loadGlobal 1 7 .i64, inst],
        terminator := .ret (some 2) })] := rfl
  rw [only, List.mem_singleton, Prod.mk.injEq] at member
  exact member

theorem twoLoads_narrow {inst : IrInstruction} (small : ∀ reg, inst.writes = some reg → reg = 2) :
    NarrowIds (twoLoads inst) := by
  have below : ∀ other ∈ [IrInstruction.loadGlobal 0 7 .i64, .loadGlobal 1 7 .i64, inst],
      ∀ reg, other.writes = some reg → reg ≤ 2 := by
    intro other member reg writes
    simp only [List.mem_cons, List.not_mem_nil, or_false] at member
    rcases member with rfl | rfl | rfl
    · cases writes
      decide
    · cases writes
      decide
    · exact (small reg writes).le
  rintro reg point (member | ⟨found, member⟩ | ⟨found, here, writes⟩)
  · exact absurd member List.not_mem_nil
  · obtain ⟨-, rfl⟩ := twoLoads_block found
    exact absurd member List.not_mem_nil
  · obtain ⟨-, rfl⟩ := twoLoads_block found
    exact lt_of_le_of_lt (below _ (List.mem_of_getElem? here) reg writes) (by decide)

end Rayzor.Passes.GlobalLoadCaching
