import Rayzor.Library.CycleSearch
import Rayzor.Library.Discovery
import Rayzor.Library.Kahn
import Rayzor.Library.Text
import Rayzor.Parser.IntLiterals

/-!
Contract: the dependency graph of the files of a compilation.

Owns: how a file is named, the graph built from a list of files, and what is computed on it: the
cycles and the compilation order of `analyze`, and the modules that `get_all_dependencies` and
`get_all_dependents` collect.

Does not own: what these mean for the files. A result is `none` where the code would underflow a
counter, unwrap nothing or not end.
-/

namespace Rayzor.Dependencies

open Library (OrdMap)
open Rayzor.Parser (Text stripSuffix)

inductive TypeDeclaration where
  | classDecl (name : Text)
  | interfaceDecl (name : Text)
  | enumDecl (name : Text)
  | typedefDecl (name : Text)
  | abstractDecl (name : Text)
  | conditional

structure HaxeFile where
  filename : Text
  package : Option (List Text)
  imports : List (List Text)
  declarations : List TypeDeclaration

structure FileNode where
  qualifiedName : Text
  filePath : Text
  fileIndex : Nat

abbrev TextSet := OrdMap Text Unit

structure DependencyGraph where
  nodes : OrdMap Text FileNode
  edges : OrdMap Text TextSet
  reverseEdges : OrdMap Text TextSet

structure CircularDependency where
  cycle : List Text
  filePaths : List Text

structure DependencyAnalysis where
  compilationOrder : List Nat
  circularDependencies : List CircularDependency

/-! ### The names of a file -/

def conditionalName : Text := ['C', 'o', 'n', 'd', 'i', 't', 'i', 'o', 'n', 'a', 'l']

def unknownName : Text := ['U', 'n', 'k', 'n', 'o', 'w', 'n']

def TypeDeclaration.typeName : TypeDeclaration → Text
  | .classDecl name => name
  | .interfaceDecl name => name
  | .enumDecl name => name
  | .typedefDecl name => name
  | .abstractDecl name => name
  | .conditional => conditionalName

def joinDots (path : List Text) : Text := ['.'].intercalate path

def extractPackageName (file : HaxeFile) : Text :=
  let packagePrefix := (file.package.map joinDots).getD []
  let typeName := match file.declarations.head? with
    | some declaration => declaration.typeName
    | none =>
        ((Library.Text.pieces '/' file.filename).getLast?.bind
          (stripSuffix ['.', 'h', 'x'])).getD unknownName
  if packagePrefix = [] then typeName else packagePrefix ++ '.' :: typeName

def extractImports (file : HaxeFile) : List Text := file.imports.map joinDots

/-! ### The graph of a list of files -/

def insertUnder (sets : OrdMap Text TextSet) (key member : Text) : OrdMap Text TextSet :=
  sets.insert key (((sets.get? key).getD OrdMap.empty).insert member ())

namespace DependencyGraph

def new : DependencyGraph := ⟨OrdMap.empty, OrdMap.empty, OrdMap.empty⟩

def addEdge (graph : DependencyGraph) (source target : Text) : DependencyGraph :=
  { graph with
      edges := insertUnder graph.edges source target
      reverseEdges := insertUnder graph.reverseEdges target source }

/-- The first pass: a file is known by its name, and the last of a name stays. -/
def register (graph : DependencyGraph) (entry : HaxeFile × Nat) : DependencyGraph :=
  let name := extractPackageName entry.1
  { graph with nodes := graph.nodes.insert name ⟨name, entry.1.filename, entry.2⟩ }

/-- The second pass: an import of a registered module is an edge. -/
def addImports (graph : DependencyGraph) (file : HaxeFile) : DependencyGraph :=
  (extractImports file).foldl (fun graph imported =>
    if graph.nodes.contains imported then graph.addEdge imported (extractPackageName file)
    else graph) graph

def fromFiles (files : List HaxeFile) : DependencyGraph :=
  files.foldl addImports (files.zipIdx.foldl register new)

/-! ### Cycles -/

/-- The set under a key, in order; empty where there is none. -/
def membersUnder (sets : OrdMap Text TextSet) (key : Text) : List Text :=
  ((sets.get? key).map OrdMap.keys).getD []

def getDirectDependencies (graph : DependencyGraph) (package : Text) : List Text :=
  membersUnder graph.edges package

def getDirectDependents (graph : DependencyGraph) (package : Text) : List Text :=
  membersUnder graph.reverseEdges package

/-- What is reported of the part of the path from a node on, which has an edge back to it. -/
def circularDependency (graph : DependencyGraph) (cyclePath : List Text) (neighbor : Text) :
    CircularDependency :=
  ⟨cyclePath ++ [neighbor], (cyclePath.filterMap graph.nodes.get?).map FileNode.filePath⟩

def circularDependencies (graph : DependencyGraph) : Option (List CircularDependency) :=
  (Library.detectAll graph.getDirectDependencies graph.circularDependency graph.nodes.keys).map
    Library.CycleSearch.cycles

/-! ### The compilation order -/

def inDegree (graph : DependencyGraph) : OrdMap Text Nat :=
  graph.edges.values.foldl (fun degrees neighbors =>
      neighbors.keys.foldl (fun degrees neighbor =>
        degrees.insert neighbor ((degrees.get? neighbor).getD 0 + 1)) degrees)
    (graph.nodes.keys.foldl (fun degrees name => degrees.insert name 0) OrdMap.empty)

def indicesOf (graph : DependencyGraph) (names : List Text) : List Nat :=
  (names.filterMap graph.nodes.get?).map FileNode.fileIndex

/-- The nodes a cycle keeps from coming out follow in the order of their names. -/
def addRemaining (graph : DependencyGraph) (result : List Nat) : List Nat :=
  if result.length < graph.nodes.entries.length then
    graph.nodes.values.foldl (fun result node =>
      if node.fileIndex ∈ result then result else result ++ [node.fileIndex]) result
  else result

def topologicalSort (graph : DependencyGraph) : Option (List Nat) :=
  let queue := (graph.inDegree.entries.filter (·.2 = 0)).map Prod.fst
  (Library.Kahn.drain graph.getDirectDependencies graph.nodes.entries.length
    (graph.inDegree, queue)).map fun popped => graph.addRemaining (graph.indicesOf popped)

def analyze (graph : DependencyGraph) : Option DependencyAnalysis :=
  graph.circularDependencies.bind fun circular =>
    graph.topologicalSort.map fun order => ⟨order, circular⟩

/-! ### What is reached from a module -/

/-- The nodes an edge leads to from a package or from a node that was found. -/
def reach (graph : DependencyGraph) (neighbors : Text → List Text) (package : Text) :
    Option TextSet :=
  (Library.discoverWith neighbors (fun fresh work => work ++ fresh) (fun _ _ => ())
    (1 + graph.nodes.entries.length) [package] ([], ())).map fun found =>
      OrdMap.ofList (found.1.map (·, ()))

def getAllDependencies (graph : DependencyGraph) (package : Text) : Option TextSet :=
  graph.reach graph.getDirectDependencies package

def getAllDependents (graph : DependencyGraph) (package : Text) : Option TextSet :=
  graph.reach graph.getDirectDependents package

end DependencyGraph

/-! ### The imports of the files -/

/-- One file imports the module that another declares. -/
def Imports (files : List HaxeFile) (importer imported : Nat) : Prop :=
  ∃ file other, files[importer]? = some file ∧ files[imported]? = some other ∧
    extractPackageName other ∈ extractImports file

/-- A file that declares one module imports another, which some file declares. -/
def ImportsModule (files : List HaxeFile) (importer imported : Text) : Prop :=
  ∃ file ∈ files, extractPackageName file = importer ∧ imported ∈ extractImports file ∧
    ∃ other ∈ files, extractPackageName other = imported

section Built

variable {files : List HaxeFile}

theorem mem_membersUnder_insertUnder (sets : OrdMap Text TextSet) (key member source target : Text) :
    target ∈ DependencyGraph.membersUnder (insertUnder sets key member) source ↔
      source = key ∧ target = member ∨ target ∈ DependencyGraph.membersUnder sets source := by
  unfold DependencyGraph.membersUnder insertUnder
  rw [OrdMap.get?_insert]
  by_cases same : source = key
  · subst same
    rw [if_pos rfl, Option.map_some, Option.getD_some, OrdMap.mem_keys_iff]
    simp only [OrdMap.get?_insert]
    cases found : sets.get? source with
    | none => simp
    | some set =>
        by_cases isMember : target = member
        · simp [isMember]
        · simp [isMember, OrdMap.mem_keys_iff]
  · rw [if_neg same]
    simp [same]

namespace DependencyGraph

theorem get?_registered (graph : DependencyGraph) (entries : List (HaxeFile × Nat)) (name : Text)
    (node : FileNode)
    (found : (entries.foldl register graph).nodes.get? name = some node) :
    graph.nodes.get? name = some node ∨ node.qualifiedName = name ∧
      ∃ entry ∈ entries, extractPackageName entry.1 = name ∧ node.filePath = entry.1.filename ∧
        node.fileIndex = entry.2 := by
  induction entries generalizing graph with
  | nil => exact Or.inl found
  | cons entry entries ih =>
      rcases ih (graph.register entry) found with before | ⟨named, other, member, is⟩
      · unfold register at before
        rw [OrdMap.get?_insert] at before
        split_ifs at before with same
        · cases before
          exact Or.inr ⟨same.symm, entry, List.mem_cons_self, same.symm, rfl, rfl⟩
        · exact Or.inl before
      · exact Or.inr ⟨named, other, List.mem_cons_of_mem _ member, is⟩

theorem mem_keys_registered (graph : DependencyGraph) (entries : List (HaxeFile × Nat))
    (name : Text) : name ∈ (entries.foldl register graph).nodes.keys ↔
      name ∈ graph.nodes.keys ∨ ∃ entry ∈ entries, extractPackageName entry.1 = name := by
  induction entries generalizing graph with
  | nil => simp
  | cons entry entries ih =>
      rw [List.foldl_cons, ih, List.exists_mem_cons_iff, ← or_assoc]
      apply or_congr_left
      unfold register
      simp only [OrdMap.mem_keys_iff, OrdMap.get?_insert]
      by_cases same : name = extractPackageName entry.1
      · simp [same]
      · simp [same, Ne.symm same]

theorem addImports_nodes (graph : DependencyGraph) (file : HaxeFile) :
    (graph.addImports file).nodes = graph.nodes := by
  unfold addImports
  generalize extractImports file = imported
  induction imported generalizing graph with
  | nil => rfl
  | cons first imported ih =>
      rw [List.foldl_cons, ih]
      split_ifs <;> rfl

theorem foldl_addImports_nodes (graph : DependencyGraph) (files : List HaxeFile) :
    (files.foldl addImports graph).nodes = graph.nodes := by
  induction files generalizing graph with
  | nil => rfl
  | cons file files ih =>
      rw [List.foldl_cons, ih, addImports_nodes]

/-- What the imports of a file add to the edges, read forward and back. -/
structure Adds (graph graph' : DependencyGraph) (added : Text → Text → Prop) : Prop where
  nodes : graph'.nodes = graph.nodes
  edges : ∀ source target, target ∈ graph'.getDirectDependencies source ↔
    target ∈ graph.getDirectDependencies source ∨ added source target
  reverseEdges : ∀ source target, source ∈ graph'.getDirectDependents target ↔
    source ∈ graph.getDirectDependents target ∨ added source target

theorem Adds.trans {first second third : DependencyGraph} {added added' : Text → Text → Prop}
    (adds : Adds first second added) (adds' : Adds second third added') :
    Adds first third fun source target => added source target ∨ added' source target where
  nodes := adds'.nodes.trans adds.nodes
  edges source target := by rw [adds'.edges, adds.edges, or_assoc]
  reverseEdges source target := by rw [adds'.reverseEdges, adds.reverseEdges, or_assoc]

theorem Adds.congr {graph graph' : DependencyGraph} {added added' : Text → Text → Prop}
    (adds : Adds graph graph' added) (same : ∀ source target, added source target ↔
      added' source target) : Adds graph graph' added' where
  nodes := adds.nodes
  edges source target := by rw [adds.edges, same]
  reverseEdges source target := by rw [adds.reverseEdges, same]

theorem adds_nothing (graph : DependencyGraph) : Adds graph graph fun _ _ => False where
  nodes := rfl
  edges source target := by rw [or_false]
  reverseEdges source target := by rw [or_false]

theorem adds_addEdge (graph : DependencyGraph) (source target : Text) :
    Adds graph (graph.addEdge source target) fun source' target' =>
      source' = source ∧ target' = target where
  nodes := rfl
  edges source' target' := by
    unfold getDirectDependencies addEdge
    rw [mem_membersUnder_insertUnder, or_comm]
  reverseEdges source' target' := by
    unfold getDirectDependents addEdge
    rw [mem_membersUnder_insertUnder, or_comm, and_comm]

theorem adds_addImports (graph : DependencyGraph) (file : HaxeFile) :
    Adds graph (graph.addImports file) fun source target =>
      extractPackageName file = target ∧ source ∈ extractImports file ∧
        source ∈ graph.nodes.keys := by
  unfold addImports
  generalize extractImports file = imported
  induction imported generalizing graph with
  | nil => exact (adds_nothing graph).congr (by simp)
  | cons first imported ih =>
      rw [List.foldl_cons]
      have listed : graph.nodes.contains first = true ↔ first ∈ graph.nodes.keys := by
        rw [OrdMap.contains_iff, OrdMap.mem_keys_iff]
      by_cases known : graph.nodes.contains first = true
      · rw [if_pos known]
        apply ((adds_addEdge graph first _).trans (ih _)).congr
        intro source target
        have same : (graph.addEdge first (extractPackageName file)).nodes = graph.nodes := rfl
        rw [same, List.mem_cons]
        constructor
        · rintro (⟨rfl, rfl⟩ | ⟨named, imports, isNode⟩)
          · exact ⟨rfl, Or.inl rfl, listed.mp known⟩
          · exact ⟨named, Or.inr imports, isNode⟩
        · rintro ⟨named, rfl | imports, isNode⟩
          · exact Or.inl ⟨rfl, named.symm⟩
          · exact Or.inr ⟨named, imports, isNode⟩
      · rw [if_neg known]
        apply (ih graph).congr
        intro source target
        rw [List.mem_cons]
        constructor
        · exact fun ⟨named, imports, isNode⟩ => ⟨named, Or.inr imports, isNode⟩
        · rintro ⟨named, rfl | imports, isNode⟩
          · exact absurd (listed.mpr isNode) known
          · exact ⟨named, imports, isNode⟩

theorem adds_imports (graph : DependencyGraph) (files : List HaxeFile) :
    Adds graph (files.foldl addImports graph) fun source target =>
      ∃ file ∈ files, extractPackageName file = target ∧ source ∈ extractImports file ∧
        source ∈ graph.nodes.keys := by
  induction files generalizing graph with
  | nil => exact (adds_nothing graph).congr (by simp)
  | cons file files ih =>
      apply ((adds_addImports graph file).trans (ih _)).congr
      intro source target
      rw [addImports_nodes, List.exists_mem_cons_iff]

/-! ### The graph of the files -/

theorem file_of_node {name : Text} {node : FileNode}
    (found : (fromFiles files).nodes.get? name = some node) :
    ∃ file, files[node.fileIndex]? = some file ∧ extractPackageName file = name := by
  rw [fromFiles, foldl_addImports_nodes] at found
  rcases get?_registered new files.zipIdx name node found with before | ⟨-, entry, member, named, -, is⟩
  · cases before
  · rw [is]
    exact ⟨entry.1, List.mk_mem_zipIdx_iff_getElem?.mp member, named⟩

theorem mem_nodes (files : List HaxeFile) (name : Text) :
    name ∈ (fromFiles files).nodes.keys ↔ ∃ file ∈ files, extractPackageName file = name := by
  rw [fromFiles, foldl_addImports_nodes, mem_keys_registered]
  constructor
  · rintro (before | ⟨entry, member, named⟩)
    · cases before
    · exact ⟨entry.1, List.fst_mem_of_mem_zipIdx member, named⟩
  · rintro ⟨file, member, named⟩
    obtain ⟨index, here⟩ := List.mem_iff_getElem?.mp member
    exact Or.inr ⟨(file, index), List.mk_mem_zipIdx_iff_getElem?.mpr here, named⟩

theorem registered_edges (graph : DependencyGraph) (entries : List (HaxeFile × Nat)) :
    (entries.foldl register graph).edges = graph.edges ∧
      (entries.foldl register graph).reverseEdges = graph.reverseEdges := by
  induction entries generalizing graph with
  | nil => exact ⟨rfl, rfl⟩
  | cons entry entries ih => exact ih (graph.register entry)

theorem mem_nodes_registered (files : List HaxeFile) (name : Text) :
    name ∈ (files.zipIdx.foldl register new).nodes.keys ↔
      ∃ file ∈ files, extractPackageName file = name := by
  rw [← mem_nodes files name, fromFiles, foldl_addImports_nodes]

theorem mem_getDirectDependencies (files : List HaxeFile) (source target : Text) :
    target ∈ (fromFiles files).getDirectDependencies source ↔
      ImportsModule files target source := by
  rw [fromFiles, (adds_imports _ files).edges]
  unfold getDirectDependencies membersUnder
  rw [(registered_edges new files.zipIdx).1, mem_nodes_registered]
  exact or_iff_right List.not_mem_nil

theorem mem_getDirectDependents (files : List HaxeFile) (source target : Text) :
    source ∈ (fromFiles files).getDirectDependents target ↔
      ImportsModule files target source := by
  rw [fromFiles, (adds_imports _ files).reverseEdges]
  unfold getDirectDependents membersUnder
  rw [(registered_edges new files.zipIdx).2, mem_nodes_registered]
  exact or_iff_right List.not_mem_nil

end DependencyGraph

end Built

end Rayzor.Dependencies
