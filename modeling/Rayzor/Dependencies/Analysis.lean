import Rayzor.Dependencies.Order

/-!
Contract: what the analysis of a list of files promises.
-/

namespace Rayzor.Dependencies

open Library (OrdMap)
open Library.Worklist (Follows)
open Library.Kahn (Sorted Stuck)
open Relation (ReflTransGen TransGen)
open Rayzor.Parser (Text)

/-! ### The promises -/

def ListsEachOnce (files : List HaxeFile) (order : List Nat) : Prop :=
  order.Perm (List.range files.length)

/-- A file stands behind each file it imports that does not import it in turn. -/
def DependenciesFirst (files : List HaxeFile) (order : List Nat) : Prop :=
  ∀ importer imported, Imports files importer imported →
    ¬TransGen (Imports files) imported importer →
    importer ∈ order ∧ order.idxOf imported < order.idxOf importer

/-- The names go around, each imported by the next. -/
def ClosedPath (files : List HaxeFile) (cycle : List Text) : Prop :=
  2 ≤ cycle.length ∧ cycle.head? = cycle.getLast? ∧
    cycle.IsChain fun imported importer => ImportsModule files importer imported

def ReportsCycles (files : List HaxeFile) (reported : List CircularDependency) : Prop :=
  (reported ≠ [] ↔ ∃ index, TransGen (Imports files) index index) ∧
    ∀ circular ∈ reported, ClosedPath files circular.cycle

/-- The dependencies of a package are the modules it imports, directly or not. -/
def CollectsDependencies (files : List HaxeFile) (graph : DependencyGraph) : Prop :=
  ∀ package, ∃ found, graph.getAllDependencies package = some found ∧
    ∀ name, name ∈ found.keys ↔ TransGen (ImportsModule files) package name

structure Promised (files : List HaxeFile) (graph : DependencyGraph)
    (analysis : DependencyAnalysis) : Prop where
  listsEachOnce : ListsEachOnce files analysis.compilationOrder
  dependenciesFirst : DependenciesFirst files analysis.compilationOrder
  reportsCycles : ReportsCycles files analysis.circularDependencies
  collectsDependencies : CollectsDependencies files graph

/-! ### What the files may be like -/

def DistinctNames (files : List HaxeFile) : Prop := (files.map extractPackageName).Nodup

def MutualImports (files : List HaxeFile) : Prop :=
  ∀ importer imported, TransGen (ImportsModule files) importer imported →
    TransGen (ImportsModule files) imported importer

/-- The module imports one that is on a cycle, directly or not, or is on one. -/
def BehindCycle (files : List HaxeFile) (name : Text) : Prop :=
  ∃ around, TransGen (ImportsModule files) around around ∧
    ReflTransGen (ImportsModule files) name around

def NamedInOrder (files : List HaxeFile) : Prop :=
  ∀ importer imported, ImportsModule files importer imported →
    ¬TransGen (ImportsModule files) imported importer → BehindCycle files imported →
    imported < importer

section Files

variable {files : List HaxeFile}

/-! ### Files and modules -/

def nameAt (files : List HaxeFile) (index : Nat) : Text :=
  ((files[index]?).map extractPackageName).getD []

theorem nameAt_of_file {file : HaxeFile} {index : Nat} (here : files[index]? = some file) :
    nameAt files index = extractPackageName file := by
  unfold nameAt
  rw [here]
  rfl

theorem Imports.importsModule {importer imported : Nat} (imports : Imports files importer imported) :
    ImportsModule files (nameAt files importer) (nameAt files imported) := by
  obtain ⟨file, other, here, there, isImport⟩ := imports
  rw [nameAt_of_file here, nameAt_of_file there]
  exact ⟨file, List.mem_of_getElem? here, rfl, isImport, other, List.mem_of_getElem? there, rfl⟩

theorem importsModule_of_imports {importer imported : Nat}
    (path : TransGen (Imports files) importer imported) :
    TransGen (ImportsModule files) (nameAt files importer) (nameAt files imported) :=
  path.lift (nameAt files) fun _ _ imports => imports.importsModule

theorem imports_of_importsModule {importer imported : Text}
    (path : TransGen (ImportsModule files) importer imported) :
    ∃ index file, files[index]? = some file ∧ extractPackageName file = importer ∧
      ∀ other last, files[other]? = some last → extractPackageName last = imported →
        TransGen (Imports files) index other := by
  induction path using TransGen.head_induction_on with
  | single imports =>
      obtain ⟨file, member, named, isImport, -⟩ := imports
      obtain ⟨index, here⟩ := List.mem_iff_getElem?.mp member
      refine ⟨index, file, here, named, fun other last there isLast => .single ?_⟩
      exact ⟨file, last, here, there, isLast ▸ isImport⟩
  | head imports _ ih =>
      obtain ⟨file, member, named, isImport, -⟩ := imports
      obtain ⟨index, here⟩ := List.mem_iff_getElem?.mp member
      obtain ⟨between, next, there, isNext, reaches⟩ := ih
      refine ⟨index, file, here, named, fun other last isThere isLast => ?_⟩
      exact .head ⟨file, next, here, there, isNext ▸ isImport⟩ (reaches other last isThere isLast)

theorem cyclic_iff : (∃ index, TransGen (Imports files) index index) ↔
    ∃ name, TransGen (ImportsModule files) name name := by
  constructor
  · rintro ⟨index, around⟩
    exact ⟨_, importsModule_of_imports around⟩
  · rintro ⟨name, around⟩
    obtain ⟨index, file, here, named, reaches⟩ := imports_of_importsModule around
    exact ⟨index, reaches index file here named⟩

theorem DistinctNames.same (distinct : DistinctNames files) {first second : Nat}
    {file other : HaxeFile} (here : files[first]? = some file) (there : files[second]? = some other)
    (named : extractPackageName file = extractPackageName other) : first = second := by
  unfold DistinctNames at distinct
  have inside : first < (files.map extractPackageName).length := by
    rw [List.length_map]
    exact (List.getElem?_eq_some_iff.mp here).1
  apply (List.getElem?_inj inside distinct).mp
  rw [List.getElem?_map, List.getElem?_map, here, there, Option.map_some, Option.map_some, named]

theorem DistinctNames.transGen_iff (distinct : DistinctNames files) {first second : Nat}
    {file other : HaxeFile} (here : files[first]? = some file)
    (there : files[second]? = some other) :
    TransGen (Imports files) first second ↔
      TransGen (ImportsModule files) (extractPackageName file) (extractPackageName other) := by
  constructor
  · intro path
    have modules := importsModule_of_imports path
    rwa [nameAt_of_file here, nameAt_of_file there] at modules
  · intro path
    obtain ⟨index, file', here', named, reaches⟩ := imports_of_importsModule path
    rw [distinct.same here here' named.symm]
    exact reaches second other there rfl

/-! ### Edges and imports -/

theorem follows_iff (files : List HaxeFile) (source target : Text) :
    Follows (DependencyGraph.fromFiles files).getDirectDependencies source target ↔
      ImportsModule files target source :=
  DependencyGraph.mem_getDirectDependencies files source target

theorem transGen_follows_iff (files : List HaxeFile) (source target : Text) :
    TransGen (Follows (DependencyGraph.fromFiles files).getDirectDependencies) source target ↔
      TransGen (ImportsModule files) target source := by
  have same : Function.swap (Follows (DependencyGraph.fromFiles files).getDirectDependencies) =
      ImportsModule files := by
    funext importer imported
    exact propext (follows_iff files imported importer)
  rw [← Relation.transGen_swap, same]

theorem stuck_iff (files : List HaxeFile) (name : Text) :
    Stuck (DependencyGraph.fromFiles files).getDirectDependencies name ↔ BehindCycle files name := by
  unfold Stuck BehindCycle
  apply exists_congr
  intro around
  rw [transGen_follows_iff, Relation.reflTransGen_iff_eq_or_transGen,
    Relation.reflTransGen_iff_eq_or_transGen, transGen_follows_iff, eq_comm]

/-! ### Cycles -/

theorem closedPath_of_closedBy {path : List Text} {node : Text} (closes :
    Library.CycleSearch.ClosedBy (DependencyGraph.fromFiles files).getDirectDependencies path node) :
    ClosedPath files (path ++ [node]) := by
  obtain ⟨opens, chain⟩ := closes
  obtain ⟨rest, rfl⟩ := List.head?_eq_some_iff.mp opens
  refine ⟨by simp, ?_, ?_⟩
  · rw [List.getLast?_concat]
    rfl
  · exact chain.imp fun source target follows => (follows_iff files source target).mp follows

theorem circularDependencies_spec (files : List HaxeFile) :
    ∃ reported, (DependencyGraph.fromFiles files).circularDependencies = some reported ∧
      ReportsCycles files reported := by
  obtain ⟨search, detected, real, cyclic⟩ := Library.CycleSearch.detectAll_spec
    (DependencyGraph.fromFiles files).circularDependency
    (DependencyGraph.getDirectDependencies_subset files)
    fun name some => DependencyGraph.mem_nodes_of_dependencies some
  refine ⟨search.cycles, ?_, ?_, ?_⟩
  · unfold DependencyGraph.circularDependencies
    rw [detected, Option.map_some]
  · rw [cyclic, cyclic_iff]
    unfold Library.Acyclic
    simp only [transGen_follows_iff, not_forall, not_not]
  · intro circular member
    obtain ⟨path, node, rfl, closes⟩ := real circular member
    exact closedPath_of_closedBy closes

/-! ### Collected modules -/

/-- What is collected from a package are the modules that edges lead to. -/
theorem reach_spec (graph : DependencyGraph) {neighbors : Text → List Text}
    (within : ∀ name, neighbors name ⊆ graph.nodes.keys) (package : Text) :
    ∃ found, graph.reach neighbors package = some found ∧
      ∀ name, name ∈ found.keys ↔ TransGen (Follows neighbors) package name := by
  have merges : Library.Discovery.Merges fun fresh work : List Text => work ++ fresh :=
    fun fresh work => List.perm_append_comm
  have enough : [package].length + graph.nodes.keys.length ≤ 1 + graph.nodes.entries.length :=
    le_of_eq (congrArg (1 + ·) (List.length_map _))
  obtain ⟨final, taken, ends, found⟩ := Library.Discovery.discovered graph.nodes.keys_nodup merges
    within (List.nil_subset [package]) (fun _ _ => ()) () enough
  refine ⟨_, congrArg (Option.map _) ends, fun name => ?_⟩
  have listed : (final.1.map (·, ())).map Prod.fst = final.1 := by
    rw [List.map_map]
    exact List.map_id _
  rw [OrdMap.mem_keys_ofList, listed, found.seen]
  simp

theorem getAllDependencies_spec (files : List HaxeFile) (package : Text) :
    ∃ found, (DependencyGraph.fromFiles files).getAllDependencies package = some found ∧
      ∀ name, name ∈ found.keys ↔ TransGen (ImportsModule files) name package := by
  obtain ⟨found, ends, mem_iff⟩ := reach_spec (DependencyGraph.fromFiles files)
    (DependencyGraph.getDirectDependencies_subset files) package
  refine ⟨found, ends, fun name => ?_⟩
  rw [mem_iff, transGen_follows_iff]

/-- What the dependents of a package are collected as are its dependencies. -/
theorem getAllDependents_spec (files : List HaxeFile) (package : Text) :
    ∃ found, (DependencyGraph.fromFiles files).getAllDependents package = some found ∧
      ∀ name, name ∈ found.keys ↔ TransGen (ImportsModule files) package name := by
  have follows : Follows (DependencyGraph.fromFiles files).getDirectDependents =
      ImportsModule files := by
    funext importer imported
    exact propext (DependencyGraph.mem_getDirectDependents files imported importer)
  have within : ∀ name, (DependencyGraph.fromFiles files).getDirectDependents name ⊆
      (DependencyGraph.fromFiles files).nodes.keys := by
    intro name source member
    obtain ⟨-, -, -, -, declared⟩ :=
      (DependencyGraph.mem_getDirectDependents files source name).mp member
    exact (DependencyGraph.mem_nodes files source).mpr declared
  obtain ⟨found, ends, mem_iff⟩ := reach_spec (DependencyGraph.fromFiles files) within package
  rw [follows] at mem_iff
  exact ⟨found, ends, mem_iff⟩

theorem collectsDependencies_iff (files : List HaxeFile) :
    CollectsDependencies files (DependencyGraph.fromFiles files) ↔ MutualImports files := by
  constructor
  · intro collects importer imported path
    obtain ⟨found, ends, mem_iff⟩ := collects importer
    obtain ⟨found', ends', mem_iff'⟩ := getAllDependencies_spec files importer
    rw [ends, Option.some_inj] at ends'
    rw [← mem_iff', ← ends', mem_iff]
    exact path
  · intro mutuals package
    obtain ⟨found, ends, mem_iff⟩ := getAllDependencies_spec files package
    refine ⟨found, ends, fun name => (mem_iff name).trans ?_⟩
    exact ⟨mutuals name package, mutuals package name⟩

/-! ### The order -/

namespace DependencyGraph

variable {popped : List Text}

theorem mem_arranged (sorted : Sorted (fromFiles files).getDirectDependencies
    (fromFiles files).nodes.keys popped) (name : Text) :
    name ∈ (fromFiles files).arranged popped ↔ name ∈ (fromFiles files).nodes.keys := by
  unfold arranged
  rw [List.mem_append, List.mem_filter, decide_eq_true_eq]
  constructor
  · rintro (isOut | ⟨isNode, -⟩)
    · exact ((sorted.mem_iff name).mp isOut).1
    · exact isNode
  · intro isNode
    by_cases isOut : name ∈ popped
    · exact Or.inl isOut
    · exact Or.inr ⟨isNode, isOut⟩

theorem arranged_nodup (sorted : Sorted (fromFiles files).getDirectDependencies
    (fromFiles files).nodes.keys popped) : ((fromFiles files).arranged popped).Nodup := by
  apply List.Nodup.append sorted.once ((fromFiles files).nodes.keys_nodup.filter _)
  intro name isOut isLeft
  exact (of_decide_eq_true (List.mem_filter.mp isLeft).2) isOut

/-- The file of an imported module stands in front, unless a cycle kept it back and its name
comes later. -/
theorem arranged_before_iff (sorted : Sorted (fromFiles files).getDirectDependencies
    (fromFiles files).nodes.keys popped) {importer imported : Text}
    (imports : ImportsModule files importer imported) :
    (((fromFiles files).arranged popped).map (fromFiles files).indexOf).idxOf
          ((fromFiles files).indexOf imported) <
        (((fromFiles files).arranged popped).map (fromFiles files).indexOf).idxOf
          ((fromFiles files).indexOf importer) ↔
      (BehindCycle files imported → imported < importer) := by
  have follows := (follows_iff files imported importer).mpr imports
  have increasing : ((fromFiles files).nodes.keys.filter (· ∉ popped)).Pairwise (· < ·) :=
    (fromFiles files).nodes.keys_sorted.filter _
  unfold arranged
  rw [sorted.before_iff increasing (fun name => by rw [List.mem_filter, decide_eq_true_eq])
    (fun first isNode second isNode' => indexOf_injective isNode isNode')
    (mem_nodes_of_dependencies (List.ne_nil_of_mem follows))
    (getDirectDependencies_subset files imported follows) follows, stuck_iff]

/-- Every file has its place in the order when no two have the same name. -/
theorem listsEachOnce_iff (sorted : Sorted (fromFiles files).getDirectDependencies
    (fromFiles files).nodes.keys popped) :
    ListsEachOnce files (((fromFiles files).arranged popped).map (fromFiles files).indexOf) ↔
      DistinctNames files := by
  have placed : ∀ index, index ∈ ((fromFiles files).arranged popped).map (fromFiles files).indexOf ↔
      ∃ name ∈ (fromFiles files).nodes.keys, (fromFiles files).indexOf name = index := by
    intro index
    simp only [List.mem_map, mem_arranged sorted]
  constructor
  · intro whole
    have same : ∀ (first second : Nat) file other, files[first]? = some file →
        files[second]? = some other →
        extractPackageName file = extractPackageName other → first = second := by
      intro first second file other here there named
      have inside := (List.getElem?_eq_some_iff.mp here).1
      have inside' := (List.getElem?_eq_some_iff.mp there).1
      obtain ⟨name, isNode, rfl⟩ := (placed first).mp (whole.mem_iff.mpr (List.mem_range.mpr inside))
      obtain ⟨name', isNode', rfl⟩ :=
        (placed second).mp (whole.mem_iff.mpr (List.mem_range.mpr inside'))
      obtain ⟨file', here', isName⟩ := file_of_indexOf isNode
      obtain ⟨other', there', isName'⟩ := file_of_indexOf isNode'
      rw [here, Option.some_inj] at here'
      rw [there, Option.some_inj] at there'
      rw [← isName, ← isName', ← here', ← there', named]
    apply List.nodup_iff_getElem?_ne_getElem?.mpr
    intro first second before inside equal
    rw [List.length_map] at inside
    rw [List.getElem?_map, List.getElem?_map, List.getElem?_eq_getElem inside,
      List.getElem?_eq_getElem (before.trans inside), Option.map_some, Option.map_some,
      Option.some_inj] at equal
    have again := same first second _ _ (List.getElem?_eq_getElem (before.trans inside))
      (List.getElem?_eq_getElem inside) equal
    omega
  · intro distinct
    apply (List.perm_ext_iff_of_nodup ?_ List.nodup_range).mpr
    · intro index
      rw [placed, List.mem_range]
      constructor
      · rintro ⟨name, isNode, rfl⟩
        obtain ⟨file, here, -⟩ := file_of_indexOf isNode
        exact (List.getElem?_eq_some_iff.mp here).1
      · intro inside
        have here := List.getElem?_eq_getElem inside
        have isNode := (mem_nodes files _).mpr ⟨_, List.mem_of_getElem? here, rfl⟩
        obtain ⟨file, there, named⟩ := file_of_indexOf isNode
        exact ⟨_, isNode, distinct.same there here named⟩
    · apply (arranged_nodup sorted).map_on
      intro first isFirst second isSecond
      exact indexOf_injective ((mem_arranged sorted first).mp isFirst)
        ((mem_arranged sorted second).mp isSecond)

theorem indexOf_of_distinct (distinct : DistinctNames files) {file : HaxeFile} {index : Nat}
    (here : files[index]? = some file) :
    (fromFiles files).indexOf (extractPackageName file) = index := by
  have isNode := (mem_nodes files _).mpr ⟨file, List.mem_of_getElem? here, rfl⟩
  obtain ⟨other, there, named⟩ := file_of_indexOf isNode
  exact distinct.same there here named

theorem dependenciesFirst_iff (sorted : Sorted (fromFiles files).getDirectDependencies
    (fromFiles files).nodes.keys popped) (distinct : DistinctNames files) :
    DependenciesFirst files (((fromFiles files).arranged popped).map (fromFiles files).indexOf) ↔
      NamedInOrder files := by
  constructor
  · intro first importer imported imports apart
    apply (arranged_before_iff sorted imports).mp
    obtain ⟨file, member, rfl, isImport, other, member', rfl⟩ := imports
    obtain ⟨index, here⟩ := List.mem_iff_getElem?.mp member
    obtain ⟨index', there⟩ := List.mem_iff_getElem?.mp member'
    rw [indexOf_of_distinct distinct here, indexOf_of_distinct distinct there]
    apply (first index index' ⟨file, other, here, there, isImport⟩ ?_).2
    rw [distinct.transGen_iff there here]
    exact apart
  · intro inOrder importer imported imports apart
    obtain ⟨file, other, here, there, isImport⟩ := imports
    rw [distinct.transGen_iff there here] at apart
    have modules : ImportsModule files (extractPackageName file) (extractPackageName other) :=
      ⟨file, List.mem_of_getElem? here, rfl, isImport, other, List.mem_of_getElem? there, rfl⟩
    constructor
    · have whole := (listsEachOnce_iff sorted).mpr distinct
      exact whole.mem_iff.mpr (List.mem_range.mpr (List.getElem?_eq_some_iff.mp here).1)
    · have before := (arranged_before_iff sorted modules).mpr (inOrder _ _ modules apart)
      rwa [indexOf_of_distinct distinct here, indexOf_of_distinct distinct there] at before

end DependencyGraph

theorem MutualImports.namedInOrder (mutuals : MutualImports files) : NamedInOrder files :=
  fun importer imported imports apart => absurd (mutuals importer imported (.single imports)) apart

end Files

/-! ### The whole analysis -/

/-- The analysis ends. Cycles are always reported as promised; each file is listed once exactly
when no two files have the same name; dependencies then come first exactly when the names behind
cycles are in order; and the collected dependencies are right exactly when imports are mutual. -/
theorem analyze_keeps_iff (files : List HaxeFile) :
    ∃ analysis, (DependencyGraph.fromFiles files).analyze = some analysis ∧
      (Promised files (DependencyGraph.fromFiles files) analysis ↔
        DistinctNames files ∧ MutualImports files) ∧
      ReportsCycles files analysis.circularDependencies ∧
      (ListsEachOnce files analysis.compilationOrder ↔ DistinctNames files) ∧
      (DistinctNames files →
        (DependenciesFirst files analysis.compilationOrder ↔ NamedInOrder files)) ∧
      (CollectsDependencies files (DependencyGraph.fromFiles files) ↔ MutualImports files) := by
  obtain ⟨reported, searched, reports⟩ := circularDependencies_spec files
  obtain ⟨popped, sorted, ordered⟩ := DependencyGraph.topologicalSort_eq files
  have once := DependencyGraph.listsEachOnce_iff sorted
  have first := DependencyGraph.dependenciesFirst_iff sorted
  have collects := collectsDependencies_iff files
  refine ⟨⟨_, reported⟩, ?_, ?_, reports, once, first, collects⟩
  · unfold DependencyGraph.analyze
    rw [searched, Option.bind_some, ordered, Option.map_some]
  · constructor
    · intro promised
      exact ⟨once.mp promised.listsEachOnce, collects.mp promised.collectsDependencies⟩
    · rintro ⟨distinct, mutuals⟩
      exact ⟨once.mpr distinct, (first distinct).mpr mutuals.namedInOrder, reports,
        collects.mpr mutuals⟩

/-- A file `A.hx` that imports `B`, and a file `B.hx`. -/
def importingFiles : List HaxeFile :=
  [⟨['A', '.', 'h', 'x'], none, [[['B']]], [.classDecl ['A']]⟩,
    ⟨['B', '.', 'h', 'x'], none, [], [.classDecl ['B']]⟩]

/-- Nothing is collected as a dependency of a module that imports another. -/
theorem importing_collects_none :
    ImportsModule importingFiles ['A'] ['B'] ∧
      ((DependencyGraph.fromFiles importingFiles).getAllDependencies ['A']).map OrdMap.keys =
        some [] ∧
      ¬∃ analysis, (DependencyGraph.fromFiles importingFiles).analyze = some analysis ∧
        Promised importingFiles (DependencyGraph.fromFiles importingFiles) analysis := by
  have imports : ImportsModule importingFiles ['A'] ['B'] :=
    ⟨_, List.mem_cons_self, rfl, List.mem_cons_self, _,
      List.mem_cons_of_mem _ List.mem_cons_self, rfl⟩
  have none : ((DependencyGraph.fromFiles importingFiles).getAllDependencies ['A']).map
      OrdMap.keys = some [] := by decide +kernel
  refine ⟨imports, none, ?_⟩
  rintro ⟨analysis, -, promised⟩
  obtain ⟨found, ends, mem_iff⟩ := promised.collectsDependencies ['A']
  rw [ends, Option.map_some, Option.some_inj] at none
  have member := (mem_iff ['B']).mpr (.single imports)
  rw [none] at member
  cases member

end Rayzor.Dependencies
