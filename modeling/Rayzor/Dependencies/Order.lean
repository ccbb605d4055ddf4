import Rayzor.Dependencies.Graph

/-!
Contract: the order that `topological_sort` computes on the graph of a list of files.
-/

namespace Rayzor.Dependencies

open Library (OrdMap)
open Library.Worklist (Follows)
open Library.Kahn (Sorted Sorting Stuck waiting)
open Rayzor.Parser (Text)

theorem get?_zeroed (names : List Text) (degrees : OrdMap Text Nat) (name : Text) :
    (names.foldl (fun degrees name => degrees.insert name 0) degrees).get? name =
      if name ∈ names then some 0 else degrees.get? name := by
  induction names generalizing degrees with
  | nil => rfl
  | cons first names ih =>
      rw [List.foldl_cons, ih, OrdMap.get?_insert]
      by_cases same : name = first
      · simp [same]
      · simp [same]

theorem get?_counted (names : List Text) (degrees : OrdMap Text Nat) (name : Text) :
    (names.foldl (fun degrees name => degrees.insert name ((degrees.get? name).getD 0 + 1))
        degrees).get? name =
      if name ∈ names then some ((degrees.get? name).getD 0 + names.count name)
      else degrees.get? name := by
  induction names generalizing degrees with
  | nil => rfl
  | cons first names ih =>
      rw [List.foldl_cons, ih, OrdMap.get?_insert]
      by_cases same : name = first
      · subst same
        rw [if_pos rfl, if_pos List.mem_cons_self, List.count_cons_self, Option.getD_some]
        split_ifs with again
        · congr 1
          omega
        · rw [List.count_eq_zero_of_not_mem again]
      · rw [if_neg same, List.count_cons_of_ne (Ne.symm same)]
        simp [same]

/-- In sets, a member occurs once in each that has it. -/
theorem count_flatMap_keys (entries : List (Text × TextSet)) (name : Text) :
    (entries.flatMap fun entry => entry.2.keys).count name =
      (entries.filter fun entry => name ∈ entry.2.keys).length := by
  induction entries with
  | nil => rfl
  | cons entry entries ih =>
      rw [List.flatMap_cons, List.count_append, ih, entry.2.keys_nodup.count,
        List.filter_cons]
      by_cases member : name ∈ entry.2.keys
      · rw [if_pos member, if_pos (decide_eq_true member), List.length_cons, Nat.add_comm]
      · rw [if_neg member, if_neg (by simpa using member), Nat.zero_add]

namespace DependencyGraph

section Built

variable {files : List HaxeFile} {name : Text}

theorem getDirectDependencies_subset (files : List HaxeFile) (name : Text) :
    (fromFiles files).getDirectDependencies name ⊆ (fromFiles files).nodes.keys := by
  intro target member
  obtain ⟨file, isFile, named, -⟩ := (mem_getDirectDependencies files name target).mp member
  exact (mem_nodes files target).mpr ⟨file, isFile, named⟩

theorem mem_nodes_of_dependencies (some : (fromFiles files).getDirectDependencies name ≠ []) :
    name ∈ (fromFiles files).nodes.keys := by
  obtain ⟨target, member⟩ := List.exists_mem_of_ne_nil _ some
  obtain ⟨-, -, -, -, declared⟩ := (mem_getDirectDependencies files name target).mp member
  exact (mem_nodes files name).mpr declared

theorem membersUnder_nodup (sets : OrdMap Text TextSet) (key : Text) :
    (membersUnder sets key).Nodup := by
  unfold membersUnder
  cases sets.get? key with
  | none => exact List.nodup_nil
  | some set => exact set.keys_nodup

theorem inDegree_eq (graph : DependencyGraph) : graph.inDegree =
    (graph.edges.entries.flatMap fun entry => entry.2.keys).foldl (fun degrees neighbor =>
        degrees.insert neighbor ((degrees.get? neighbor).getD 0 + 1))
      (graph.nodes.keys.foldl (fun degrees name => degrees.insert name 0) OrdMap.empty) := by
  unfold inDegree OrdMap.values
  rw [List.foldl_map, List.foldl_flatMap]

theorem mem_nodes_of_edge {source : Text} {set : TextSet}
    (entry : (source, set) ∈ (fromFiles files).edges.entries) (member : name ∈ set.keys) :
    name ∈ (fromFiles files).getDirectDependencies source := by
  unfold getDirectDependencies membersUnder
  rw [((fromFiles files).edges.mem_entries_iff source set).mp entry]
  exact member

/-- The count of a node is the number of its predecessors, and only nodes are counted. -/
theorem get?_inDegree (files : List HaxeFile) (name : Text) :
    (fromFiles files).inDegree.get? name = if name ∈ (fromFiles files).nodes.keys then
      some (waiting (fromFiles files).getDirectDependencies (fromFiles files).nodes.keys [] name)
      else none := by
  rw [inDegree_eq, get?_counted, get?_zeroed]
  by_cases isNode : name ∈ (fromFiles files).nodes.keys
  · rw [if_pos isNode, if_pos isNode, Option.getD_some, Nat.zero_add]
    have counts : ((fromFiles files).edges.entries.flatMap fun entry => entry.2.keys).count name =
        waiting (fromFiles files).getDirectDependencies (fromFiles files).nodes.keys [] name := by
      rw [count_flatMap_keys]
      rw [← List.length_map Prod.fst]
      apply (Library.Kahn.waiting_eq_length (fromFiles files).nodes.keys_nodup ?_ ?_).symm
      · exact (OrdMap.keys_nodup _).sublist (List.filter_sublist.map Prod.fst)
      · intro source
        simp only [List.mem_map, List.mem_filter, decide_eq_true_eq, Prod.exists,
          exists_and_right, exists_eq_right, List.not_mem_nil, not_false_eq_true, true_and]
        constructor
        · rintro ⟨set, entry, member⟩
          have follows := mem_nodes_of_edge entry member
          exact ⟨mem_nodes_of_dependencies (List.ne_nil_of_mem follows), follows⟩
        · rintro ⟨-, follows⟩
          unfold getDirectDependencies membersUnder at follows
          cases found : (fromFiles files).edges.get? source with
          | none =>
              rw [found] at follows
              cases follows
          | some set =>
              rw [found] at follows
              exact ⟨set, (OrdMap.mem_entries_iff _ _ _).mpr found, follows⟩
    split_ifs with counted
    · rw [counts]
    · rw [← counts, List.count_eq_zero_of_not_mem counted]
  · have apart : name ∉ (fromFiles files).edges.entries.flatMap fun entry => entry.2.keys := by
      intro counted
      obtain ⟨entry, isEntry, member⟩ := List.mem_flatMap.mp counted
      exact isNode (getDirectDependencies_subset files entry.1 (mem_nodes_of_edge isEntry member))
    rw [if_neg isNode, if_neg isNode, if_neg apart]
    rfl

theorem sorting_start (files : List HaxeFile) :
    Sorting (fromFiles files).getDirectDependencies (fromFiles files).nodes.keys []
      (fromFiles files).inDegree
      (((fromFiles files).inDegree.entries.filter (·.2 = 0)).map Prod.fst) := by
  have queued : ∀ name, name ∈ ((fromFiles files).inDegree.entries.filter (·.2 = 0)).map Prod.fst ↔
      (fromFiles files).inDegree.get? name = some 0 := by
    intro name
    simp [OrdMap.mem_entries_iff]
  refine ⟨?_, ?_, ?_, ?_, Library.Layered.nil⟩
  · intro name isNode
    rw [get?_inDegree, if_pos isNode]
  · exact (OrdMap.keys_nodup _).sublist (List.filter_sublist.map Prod.fst)
  · intro name isNode
    rw [List.nil_append, queued, get?_inDegree, if_pos isNode, Option.some_inj]
  · intro name member
    rw [List.nil_append, queued, get?_inDegree] at member
    by_contra notNode
    rw [if_neg notNode] at member
    cases member

def indexOf (graph : DependencyGraph) (name : Text) : Nat :=
  ((graph.nodes.get? name).map FileNode.fileIndex).getD 0

theorem indicesOf_eq_map (graph : DependencyGraph) {names : List Text}
    (within : names ⊆ graph.nodes.keys) : graph.indicesOf names = names.map graph.indexOf := by
  unfold indicesOf
  induction names with
  | nil => rfl
  | cons first names ih =>
      obtain ⟨isNode, rest⟩ := List.cons_subset.mp within
      obtain ⟨node, found⟩ := (graph.nodes.mem_keys_iff first).mp isNode
      rw [List.filterMap_cons_some found, List.map_cons, ih rest, List.map_cons]
      unfold indexOf
      rw [found]
      rfl

theorem file_of_indexOf (isNode : name ∈ (fromFiles files).nodes.keys) :
    ∃ file, files[(fromFiles files).indexOf name]? = some file ∧ extractPackageName file = name := by
  obtain ⟨node, found⟩ := ((fromFiles files).nodes.mem_keys_iff name).mp isNode
  unfold indexOf
  rw [found]
  exact file_of_node found

theorem indexOf_injective {other : Text} (isNode : name ∈ (fromFiles files).nodes.keys)
    (isNode' : other ∈ (fromFiles files).nodes.keys)
    (same : (fromFiles files).indexOf name = (fromFiles files).indexOf other) : name = other := by
  obtain ⟨file, here, named⟩ := file_of_indexOf isNode
  obtain ⟨file', here', named'⟩ := file_of_indexOf isNode'
  rw [same, here', Option.some_inj] at here
  rw [← named, ← named', here]

/-- The modules the loop leaves over follow those it sorted. -/
def arranged (graph : DependencyGraph) (popped : List Text) : List Text :=
  popped ++ graph.nodes.keys.filter (· ∉ popped)

theorem foldl_remaining (entries : List (Text × FileNode))
    (found : ∀ entry ∈ entries, (fromFiles files).nodes.get? entry.1 = some entry.2)
    (distinct : (entries.map Prod.fst).Nodup) {names : List Text}
    (within : names ⊆ (fromFiles files).nodes.keys) :
    entries.foldl (fun result entry => if entry.2.fileIndex ∈ result then result
        else result ++ [entry.2.fileIndex]) (names.map (fromFiles files).indexOf) =
      (names ++ (entries.map Prod.fst).filter (· ∉ names)).map (fromFiles files).indexOf := by
  induction entries generalizing names with
  | nil => simp
  | cons entry entries ih =>
      rw [List.map_cons, List.nodup_cons] at distinct
      have here := found entry List.mem_cons_self
      have isNode : entry.1 ∈ (fromFiles files).nodes.keys :=
        ((fromFiles files).nodes.mem_keys_iff entry.1).mpr ⟨entry.2, here⟩
      have index : entry.2.fileIndex = (fromFiles files).indexOf entry.1 := by
        unfold indexOf
        rw [here]
        rfl
      have placed : entry.2.fileIndex ∈ names.map (fromFiles files).indexOf ↔ entry.1 ∈ names := by
        rw [index, List.mem_map]
        constructor
        · rintro ⟨name, member, same⟩
          exact indexOf_injective (within member) isNode same ▸ member
        · exact fun member => ⟨entry.1, member, rfl⟩
      have later := fun other member => found other (List.mem_cons_of_mem entry member)
      rw [List.foldl_cons, List.map_cons, List.filter_cons]
      by_cases member : entry.1 ∈ names
      · rw [if_pos (placed.mpr member), if_neg (by simpa using member)]
        exact ih later distinct.2 within
      · rw [if_neg fun isPlaced => member (placed.mp isPlaced), if_pos (decide_eq_true member)]
        have grown : names ++ [entry.1] ⊆ (fromFiles files).nodes.keys :=
          List.append_subset.mpr ⟨within, by simpa using isNode⟩
        have others : (entries.map Prod.fst).filter (· ∉ names ++ [entry.1]) =
            (entries.map Prod.fst).filter (· ∉ names) := by
          apply List.filter_congr
          intro name isLater
          have differs : name ≠ entry.1 := by
            rintro rfl
            exact distinct.1 isLater
          simp [differs]
        have joined := ih later distinct.2 grown
        rw [List.map_append, List.map_singleton, ← index, others, List.append_assoc,
          List.singleton_append] at joined
        exact joined

theorem addRemaining_eq {popped : List Text} (once : popped.Nodup)
    (within : popped ⊆ (fromFiles files).nodes.keys) :
    (fromFiles files).addRemaining ((fromFiles files).indicesOf popped) =
      ((fromFiles files).arranged popped).map (fromFiles files).indexOf := by
  rw [indicesOf_eq_map _ within]
  unfold addRemaining arranged
  rw [List.length_map]
  split_ifs with short
  · unfold OrdMap.values
    rw [List.foldl_map]
    apply foldl_remaining _ _ (fromFiles files).nodes.keys_nodup within
    intro entry member
    exact ((fromFiles files).nodes.mem_entries_iff entry.1 entry.2).mp member
  · have keysLength : (fromFiles files).nodes.keys.length = (fromFiles files).nodes.entries.length :=
      List.length_map _
    have whole := (once.subperm within).perm_of_length_le (by omega)
    have none : (fromFiles files).nodes.keys.filter (· ∉ popped) = [] := by
      apply List.filter_eq_nil_iff.mpr
      intro name isNode
      simpa using whole.mem_iff.mpr isNode
    rw [none, List.append_nil]

/-- The order is that of the modules the loop sorts, then the rest. -/
theorem topologicalSort_eq (files : List HaxeFile) :
    ∃ popped, Sorted (fromFiles files).getDirectDependencies (fromFiles files).nodes.keys popped ∧
      (fromFiles files).topologicalSort =
        some (((fromFiles files).arranged popped).map (fromFiles files).indexOf) := by
  have once : ∀ name, ((fromFiles files).getDirectDependencies name).Nodup :=
    fun name => membersUnder_nodup _ name
  have enough : (fromFiles files).nodes.keys.length ≤ (fromFiles files).nodes.entries.length :=
    le_of_eq (List.length_map _)
  obtain ⟨popped, drained, sorted⟩ := Library.Kahn.sorted_of_sorting
    (fromFiles files).nodes.keys_nodup once (getDirectDependencies_subset files)
    (fun name some => mem_nodes_of_dependencies some) enough (sorting_start files)
  refine ⟨popped, sorted, ?_⟩
  have within : popped ⊆ (fromFiles files).nodes.keys :=
    fun name member => ((sorted.mem_iff name).mp member).1
  rw [← addRemaining_eq sorted.once within]
  exact congrArg (Option.map fun popped =>
    (fromFiles files).addRemaining ((fromFiles files).indicesOf popped)) drained

end Built

end DependencyGraph

end Rayzor.Dependencies
