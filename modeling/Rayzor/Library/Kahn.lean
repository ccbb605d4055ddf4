import Rayzor.Library.Acyclic
import Rayzor.Library.OrdMap
import Rayzor.Library.Worklist

/-!
Contract: topological sorting by counting what each node still waits for.

Owns: the loop over a queue of nodes that wait for nothing, with a count for each
node; that it ends and puts each node out once, behind its predecessors; and that
those left over are the ones a cycle leads to.

Does not own: how the counts are first made. The graph is a function from a node to the list of
its successors.
-/

namespace Rayzor.Library

universe u v

variable {ι : Type u} [LinearOrder ι]

namespace Kahn

open Worklist (Follows)

/-- One successor of a node that came out waits for one node less, and joins the queue when it
waits for none. A count of zero cannot be lowered. -/
def release (state : OrdMap ι Nat × List ι) (neighbor : ι) : Option (OrdMap ι Nat × List ι) :=
  match state.1.get? neighbor with
  | none => some state
  | some 0 => none
  | some (degree + 1) =>
      some (state.1.insert neighbor degree,
        if degree = 0 then state.2 ++ [neighbor] else state.2)

/-- Take nodes off the queue until it is empty. There is no result when the steps run out
before. -/
def drain (successors : ι → List ι) : Nat → OrdMap ι Nat × List ι → Option (List ι)
  | _, (_, []) => some []
  | 0, (_, _ :: _) => none
  | fuel + 1, (degrees, node :: queue) =>
      ((successors node).foldlM release (degrees, queue)).bind fun state =>
        (drain successors fuel state).map (node :: ·)

/-- The predecessors of a node among the nodes that did not come out. -/
def waiting (successors : ι → List ι) (nodes popped : List ι) (node : ι) : Nat :=
  (nodes.filter fun before => before ∉ popped ∧ node ∈ successors before).length

/-- The counts are those of the predecessors to come, and a node is queued or out when it waits
for none. -/
structure Sorting (successors : ι → List ι) (nodes popped : List ι) (degrees : OrdMap ι Nat)
    (queue : List ι) : Prop where
  counts : ∀ node ∈ nodes, degrees.get? node = some (waiting successors nodes popped node)
  once : (popped ++ queue).Nodup
  free : ∀ node ∈ nodes, node ∈ popped ++ queue ↔ waiting successors nodes popped node = 0
  listed : popped ++ queue ⊆ nodes
  layered : Layered (fun node before => before ∈ nodes ∧ Follows successors before node) popped

variable {successors : ι → List ι} {nodes popped queue : List ι} {degrees : OrdMap ι Nat} {node : ι}

theorem waiting_eq_zero : waiting successors nodes popped node = 0 ↔
    ∀ before ∈ nodes, node ∈ successors before → before ∈ popped := by
  unfold waiting
  rw [List.length_eq_zero_iff, List.filter_eq_nil_iff]
  constructor
  · intro empty before listed follows
    by_contra ahead
    exact empty before listed (decide_eq_true ⟨ahead, follows⟩)
  · intro areOut before listed passes
    obtain ⟨ahead, follows⟩ := of_decide_eq_true passes
    exact ahead (areOut before listed follows)

/-- The number of predecessors to come, listed in any way. -/
theorem waiting_eq_length (distinct : nodes.Nodup) {sources : List ι} (once : sources.Nodup)
    (mem_iff : ∀ before, before ∈ sources ↔
      before ∈ nodes ∧ before ∉ popped ∧ node ∈ successors before) :
    waiting successors nodes popped node = sources.length := by
  unfold waiting
  apply List.Perm.length_eq
  apply (List.perm_ext_iff_of_nodup (distinct.filter _) once).mpr
  intro before
  rw [List.mem_filter, decide_eq_true_eq, mem_iff]

theorem waiting_concat (distinct : nodes.Nodup) (listed : node ∈ nodes) (ahead : node ∉ popped)
    (other : ι) : waiting successors nodes popped other =
      waiting successors nodes (popped ++ [node]) other +
        if other ∈ successors node then 1 else 0 := by
  have parts : waiting successors nodes popped other =
      ((nodes.filter fun before => before ∉ popped ++ [node] ∧ other ∈ successors before) ++
        if other ∈ successors node then [node] else []).length := by
    apply waiting_eq_length distinct
    · apply List.Nodup.append (distinct.filter _)
      · split_ifs
        · exact List.nodup_singleton node
        · exact List.nodup_nil
      · intro before kept isNode
        simp only [List.mem_filter, decide_eq_true_eq, List.mem_append, List.mem_singleton,
          not_or] at kept
        split_ifs at isNode
        · exact kept.2.1.2 (List.mem_singleton.mp isNode)
        · cases isNode
    · intro before
      simp only [List.mem_filter, decide_eq_true_eq, List.mem_append, List.mem_singleton, not_or]
      by_cases same : before = node
      · subst same
        by_cases follows : other ∈ successors before
        · simp [listed, ahead, follows]
        · simp [follows]
      · have apart : before ∉ (if other ∈ successors node then [node] else []) := by
          split_ifs
          · exact fun member => same (List.mem_singleton.mp member)
          · exact List.not_mem_nil
        simp [same, apart]
  rw [parts, List.length_append]
  unfold waiting
  split_ifs <;> rfl

section Counts

def members (edges : OrdMap ι (OrdMap ι Unit)) (node : ι) : List ι :=
  ((edges.get? node).map OrdMap.keys).getD []

theorem mem_members {edges : OrdMap ι (OrdMap ι Unit)} {node next : ι} :
    next ∈ members edges node ↔ ∃ set, (node, set) ∈ edges.entries ∧ next ∈ set.keys := by
  unfold members
  simp only [OrdMap.mem_entries_iff]
  cases edges.get? node <;> simp

theorem members_nodup (edges : OrdMap ι (OrdMap ι Unit)) (node : ι) :
    (members edges node).Nodup := by
  unfold members
  cases edges.get? node with
  | none => exact List.nodup_nil
  | some set => exact set.keys_nodup

def zeroed (nodes : List ι) : OrdMap ι Nat :=
  nodes.foldl (fun degrees node => degrees.insert node 0) OrdMap.empty

theorem get?_zeroed (nodes : List ι) (node : ι) :
    (zeroed nodes).get? node = if node ∈ nodes then some 0 else none := by
  have along : ∀ degrees : OrdMap ι Nat,
      (nodes.foldl (fun degrees node => degrees.insert node 0) degrees).get? node =
        if node ∈ nodes then some 0 else degrees.get? node := by
    induction nodes with
    | nil => exact fun _ => rfl
    | cons first nodes ih =>
        intro degrees
        rw [List.foldl_cons, ih, OrdMap.get?_insert]
        by_cases same : node = first <;> simp [same]
  exact along OrdMap.empty

/-- The counts of nodes that have one grow by one for each time they are listed. -/
def countAll (targets : List ι) (degrees : OrdMap ι Nat) : Option (OrdMap ι Nat) :=
  targets.foldlM (fun (degrees : OrdMap ι Nat) target =>
    (degrees.get? target).map fun degree => degrees.insert target (degree + 1)) degrees

theorem countAll_spec (targets : List ι) : ∀ {degrees : OrdMap ι Nat},
    (∀ target ∈ targets, ∃ degree, degrees.get? target = some degree) →
      ∃ degrees', countAll targets degrees = some degrees' ∧ ∀ node,
        degrees'.get? node = (degrees.get? node).map (· + (targets.filter (· = node)).length) := by
  induction targets with
  | nil =>
      intro degrees _
      exact ⟨degrees, rfl, fun node => by cases degrees.get? node <;> rfl⟩
  | cons target targets ih =>
      intro degrees counted
      obtain ⟨degree, isDegree⟩ := counted target List.mem_cons_self
      have rest : ∀ other ∈ targets,
          ∃ degree', (degrees.insert target (degree + 1)).get? other = some degree' := by
        intro other isOther
        rw [OrdMap.get?_insert]
        split_ifs
        · exact ⟨_, rfl⟩
        · exact counted other (List.mem_cons_of_mem _ isOther)
      obtain ⟨degrees', folded, counts⟩ := ih rest
      refine ⟨degrees', ?_, fun node => ?_⟩
      · rw [countAll, List.foldlM_cons, isDegree]
        exact folded
      · rw [counts, OrdMap.get?_insert]
        by_cases same : node = target
        · subst same
          simp [isDegree, Nat.add_assoc, Nat.add_comm]
        · have different : target ≠ node := fun isNode => same isNode.symm
          simp [same, different]

theorem length_filter_flatMap_keys (entries : List (ι × OrdMap ι Unit)) (node : ι) :
    ((entries.flatMap fun entry => entry.2.keys).filter (· = node)).length =
      (entries.filter fun entry => node ∈ entry.2.keys).length := by
  induction entries with
  | nil => rfl
  | cons entry entries ih =>
      rw [List.flatMap_cons, List.filter_append, List.length_append, ih,
        List.filter_cons]
      by_cases member : node ∈ entry.2.keys
      · have one : (entry.2.keys.filter (· = node)).length = 1 := by
          rw [List.filter_eq, List.length_replicate]
          exact List.count_eq_one_of_mem entry.2.keys_nodup member
        rw [if_pos (decide_eq_true member), one, List.length_cons, Nat.add_comm]
      · have none : entry.2.keys.filter (· = node) = [] := by
          rw [List.filter_eq_nil_iff]
          intro other isOther
          rw [decide_eq_true_eq]
          exact fun same => member (same ▸ isOther)
        rw [if_neg (by simpa using member), none, List.length_nil, Nat.zero_add]

theorem sorting_of_counts {edges : OrdMap ι (OrdMap ι Unit)} (distinct : nodes.Nodup)
    (within : ∀ node, members edges node ⊆ nodes)
    (sources : ∀ node, members edges node ≠ [] → node ∈ nodes) :
    ∃ degrees, countAll (edges.values.flatMap OrdMap.keys) (zeroed nodes) = some degrees ∧
      Sorting (members edges) nodes [] degrees
        ((degrees.entries.filter (·.2 = 0)).map Prod.fst) := by
  have listed : edges.values.flatMap OrdMap.keys =
      edges.entries.flatMap fun entry => entry.2.keys := List.flatMap_map ..
  have follows : ∀ {entry : ι × OrdMap ι Unit} {next}, entry ∈ edges.entries →
      next ∈ entry.2.keys → next ∈ members edges entry.1 :=
    fun isEntry member => mem_members.mpr ⟨_, isEntry, member⟩
  have counted : ∀ target ∈ edges.values.flatMap OrdMap.keys,
      ∃ degree, (zeroed nodes).get? target = some degree := by
    intro target isTarget
    rw [listed, List.mem_flatMap] at isTarget
    obtain ⟨entry, isEntry, member⟩ := isTarget
    exact ⟨0, by rw [get?_zeroed, if_pos (within _ (follows isEntry member))]⟩
  obtain ⟨degrees, isDegrees, counts⟩ := countAll_spec _ counted
  have get?_degrees : ∀ node, degrees.get? node =
      if node ∈ nodes then some (waiting (members edges) nodes [] node) else none := by
    intro node
    rw [counts, get?_zeroed]
    split_ifs with isNode
    · rw [Option.map_some, Nat.zero_add, listed, length_filter_flatMap_keys,
        ← List.length_map Prod.fst]
      congr 1
      symm
      apply waiting_eq_length distinct
      · exact (OrdMap.keys_nodup edges).sublist (List.filter_sublist.map Prod.fst)
      · intro source
        rw [mem_members, List.mem_map]
        simp only [List.mem_filter, decide_eq_true_eq, Prod.exists, exists_and_right,
          exists_eq_right, List.not_mem_nil, not_false_eq_true, true_and]
        constructor
        · rintro ⟨set, isEntry, member⟩
          exact ⟨sources source (List.ne_nil_of_mem (follows isEntry member)),
            set, isEntry, member⟩
        · rintro ⟨-, set, isEntry, member⟩
          exact ⟨set, isEntry, member⟩
    · rfl
  have queued : ∀ node, node ∈ (degrees.entries.filter (·.2 = 0)).map Prod.fst ↔
      degrees.get? node = some 0 := by
    intro node
    simp [OrdMap.mem_entries_iff]
  refine ⟨degrees, isDegrees, ?_, ?_, ?_, ?_, Layered.nil⟩
  · intro node isNode
    rw [get?_degrees, if_pos isNode]
  · exact (OrdMap.keys_nodup _).sublist (List.filter_sublist.map Prod.fst)
  · intro node isNode
    rw [List.nil_append, queued, get?_degrees, if_pos isNode, Option.some_inj]
  · intro node member
    rw [List.nil_append, queued, get?_degrees] at member
    by_contra notNode
    rw [if_neg notNode] at member
    cases member

end Counts

theorem release_all (degrees : OrdMap ι Nat) (queue : List ι) (count : ι → Nat) {rest : List ι}
    (once : rest.Nodup)
    (counted : ∀ neighbor ∈ rest, degrees.get? neighbor = some (count neighbor + 1)) :
    ∃ degrees', rest.foldlM release (degrees, queue) =
        some (degrees', queue ++ rest.filter (count · = 0)) ∧
      ∀ other, degrees'.get? other =
        if other ∈ rest then some (count other) else degrees.get? other := by
  induction rest generalizing degrees queue with
  | nil =>
      refine ⟨degrees, ?_, fun other => (if_neg List.not_mem_nil).symm⟩
      rw [List.filter_nil, List.append_nil]
      rfl
  | cons neighbor rest ih =>
      obtain ⟨isNew, once⟩ := List.nodup_cons.mp once
      have released : release (degrees, queue) neighbor =
          some (degrees.insert neighbor (count neighbor),
            if count neighbor = 0 then queue ++ [neighbor] else queue) := by
        unfold release
        rw [counted neighbor List.mem_cons_self]
      have countedRest : ∀ other ∈ rest, (degrees.insert neighbor (count neighbor)).get? other =
          some (count other + 1) := by
        intro other member
        have differs : other ≠ neighbor := by
          rintro rfl
          exact isNew member
        rw [OrdMap.get?_insert_of_ne _ _ differs]
        exact counted other (List.mem_cons_of_mem _ member)
      obtain ⟨degrees', folded, found⟩ := ih
        (degrees.insert neighbor (count neighbor))
        (if count neighbor = 0 then queue ++ [neighbor] else queue) once countedRest
      refine ⟨degrees', ?_, fun other => ?_⟩
      · rw [List.foldlM_cons, released]
        refine folded.trans ?_
        rw [List.filter_cons]
        by_cases isFree : count neighbor = 0
        · simp [isFree]
        · simp [isFree]
      · rw [found other, OrdMap.get?_insert]
        by_cases same : other = neighbor
        · subst same
          simp [isNew]
        · simp [same]

/-- One step of the loop: the node at the front comes out. -/
theorem Sorting.step (distinct : nodes.Nodup) (onceEach : ∀ node, (successors node).Nodup)
    (within : ∀ node, successors node ⊆ nodes)
    (sorting : Sorting successors nodes popped degrees (node :: queue)) :
    ∃ degrees' queue', (successors node).foldlM release (degrees, queue) = some (degrees', queue') ∧
      Sorting successors nodes (popped ++ [node]) degrees' queue' := by
  have listed : node ∈ nodes := sorting.listed (List.mem_append_right _ List.mem_cons_self)
  have ahead : node ∉ popped := by
    intro isOut
    exact (List.nodup_append.mp sorting.once).2.2 node isOut node List.mem_cons_self rfl
  have fewer : ∀ other, waiting successors nodes popped other =
      waiting successors nodes (popped ++ [node]) other +
        if other ∈ successors node then 1 else 0 := waiting_concat distinct listed ahead
  obtain ⟨degrees', folded, found⟩ := release_all degrees queue
    (waiting successors nodes (popped ++ [node])) (onceEach node) fun neighbor follows => by
      rw [sorting.counts neighbor (within node follows), fewer neighbor, if_pos follows]
  refine ⟨degrees', _, folded, ⟨?_, ?_, ?_, ?_, ?_⟩⟩
  · intro other isNode
    rw [found other]
    split_ifs with follows
    · rfl
    · rw [sorting.counts other isNode, fewer other, if_neg follows]
      rfl
  · rw [← List.append_assoc, List.append_assoc popped]
    apply List.Nodup.append sorting.once ((onceEach node).filter _)
    intro other before joined
    obtain ⟨follows, -⟩ := List.mem_filter.mp joined
    have wasFree := (sorting.free other (within node follows)).mp before
    rw [fewer other, if_pos follows] at wasFree
    omega
  · intro other isNode
    have before := sorting.free other isNode
    rw [← List.append_assoc, List.append_assoc popped, List.mem_append]
    rw [List.singleton_append, before, fewer other, List.mem_filter, decide_eq_true_eq]
    split_ifs with follows
    · simp [follows]
    · simp [follows]
  · intro other member
    rw [← List.append_assoc, List.append_assoc popped] at member
    rcases List.mem_append.mp member with before | joined
    · exact sorting.listed before
    · exact within node (List.mem_filter.mp joined).1
  · apply sorting.layered.concat
    intro before need
    have free := (sorting.free node listed).mp (List.mem_append_right _ List.mem_cons_self)
    exact waiting_eq_zero.mp free before need.1 need.2

/-- With a step for each node to come the loop ends, and what came out is sorted. -/
theorem sorted_drain (distinct : nodes.Nodup) (onceEach : ∀ node, (successors node).Nodup)
    (within : ∀ node, successors node ⊆ nodes) {fuel : Nat}
    (enough : nodes.length ≤ fuel + popped.length)
    (sorting : Sorting successors nodes popped degrees queue) :
    ∃ rest degrees', drain successors fuel (degrees, queue) = some rest ∧
      Sorting successors nodes (popped ++ rest) degrees' [] := by
  induction fuel generalizing popped degrees queue with
  | zero =>
      cases queue with
      | nil => exact ⟨[], degrees, rfl, by rw [List.append_nil]; exact sorting⟩
      | cons node queue =>
          have short := (sorting.once.subperm sorting.listed).length_le
          rw [List.length_append, List.length_cons] at short
          omega
  | succ fuel ih =>
      cases queue with
      | nil => exact ⟨[], degrees, rfl, by rw [List.append_nil]; exact sorting⟩
      | cons node queue =>
          obtain ⟨degrees', queue', folded, sorting'⟩ := sorting.step distinct onceEach within
          obtain ⟨rest, final, drained, isFinal⟩ := ih (by
            rw [List.length_append, List.length_singleton]
            omega) sorting'
          refine ⟨node :: rest, final, ?_, ?_⟩
          · rw [drain, folded, Option.bind_some, drained, Option.map_some]
          · rw [List.append_assoc, List.singleton_append] at isFinal
            exact isFinal

/-- A cycle leads to the node. -/
def Stuck (successors : ι → List ι) (node : ι) : Prop :=
  ∃ around, Relation.TransGen (Follows successors) around around ∧
    Relation.ReflTransGen (Follows successors) around node

/-- Nothing that came out can be behind a cycle. -/
theorem Sorting.notStuck (sources : ∀ node, successors node ≠ [] → node ∈ nodes)
    (sorting : Sorting successors nodes popped degrees queue) (isOut : node ∈ popped) :
    ¬Stuck successors node := by
  rintro ⟨around, cycle, path⟩
  have isOut' : around ∈ popped := by
    induction path with
    | refl => exact isOut
    | tail _ follows ih =>
        have listed := sources _ (List.ne_nil_of_mem follows)
        exact ih (sorting.layered.precedes isOut ⟨listed, follows⟩).1
  apply sorting.layered.irreflexive isOut'
  apply Relation.TransGen.mono _ _ _ (Relation.transGen_swap.mpr cycle)
  intro later earlier follows
  exact ⟨sources earlier (List.ne_nil_of_mem follows), follows⟩

open Classical in
/-- With the queue empty, a cycle leads to each node that did not come out. -/
theorem Sorting.stuck (sorting : Sorting successors nodes popped degrees [])
    (listed : node ∈ nodes) (left : node ∉ popped) : Stuck successors node := by
  by_contra notStuck
  let back : List ι := nodes.filter fun other =>
    other ∉ popped ∧ Relation.ReflTransGen (Follows successors) other node
  have inBack : ∀ other, other ∈ back ↔ other ∈ nodes ∧ other ∉ popped ∧
      Relation.ReflTransGen (Follows successors) other node := by
    intro other
    rw [List.mem_filter, decide_eq_true_eq]
  have acyclic : Acyclic fun later earlier => earlier ∈ back ∧ later ∈ back ∧
      Follows successors earlier later := by
    intro other cycle
    have turned : ∀ last, Relation.TransGen (fun later earlier => earlier ∈ back ∧ later ∈ back ∧
        Follows successors earlier later) other last →
        other ∈ back ∧ Relation.TransGen (Follows successors) last other := by
      intro last path
      induction path with
      | single step => exact ⟨step.2.1, .single step.2.2⟩
      | tail _ step ih =>
          exact ⟨ih.1, .head step.2.2 ih.2⟩
    obtain ⟨member, around⟩ := turned other cycle
    exact notStuck ⟨other, around, ((inBack other).mp member).2.2⟩
  have some : back ≠ [] := List.ne_nil_of_mem ((inBack node).mpr ⟨listed, left, .refl⟩)
  obtain ⟨first, member, isFirst⟩ := acyclic.exists_last some
  obtain ⟨isNode, ahead, path⟩ := (inBack first).mp member
  have isFree : waiting successors nodes popped first = 0 := by
    apply waiting_eq_zero.mpr
    intro before isBefore follows
    by_contra notOut
    have isBack : before ∈ back := (inBack before).mpr ⟨isBefore, notOut, .head follows path⟩
    exact isFirst before isBack ⟨isBack, member, follows⟩
  have isOut := (sorting.free first isNode).mpr isFree
  rw [List.append_nil] at isOut
  exact ahead isOut

/-- What comes out: each node that no cycle leads to, once, behind its predecessors. -/
structure Sorted (successors : ι → List ι) (nodes sorted : List ι) : Prop where
  once : sorted.Nodup
  mem_iff : ∀ node, node ∈ sorted ↔ node ∈ nodes ∧ ¬Stuck successors node
  precedes : ∀ before node, Follows successors before node → node ∈ sorted →
    before ∈ sorted ∧ sorted.idxOf before < sorted.idxOf node

theorem sorted_of_sorting (distinct : nodes.Nodup) (onceEach : ∀ node, (successors node).Nodup)
    (within : ∀ node, successors node ⊆ nodes)
    (sources : ∀ node, successors node ≠ [] → node ∈ nodes) {fuel : Nat}
    (enough : nodes.length ≤ fuel) (sorting : Sorting successors nodes [] degrees queue) :
    ∃ sorted, drain successors fuel (degrees, queue) = some sorted ∧
      Sorted successors nodes sorted := by
  obtain ⟨sorted, degrees', drained, final⟩ := sorted_drain distinct onceEach within
    (by rw [List.length_nil]; omega) sorting
  rw [List.nil_append] at final
  refine ⟨sorted, drained, ⟨?_, fun node => ⟨fun isOut => ⟨?_, ?_⟩, fun both => ?_⟩, ?_⟩⟩
  · simpa using final.once
  · exact final.listed (List.mem_append_left _ isOut)
  · exact final.notStuck sources isOut
  · by_contra left
    exact both.2 (final.stuck both.1 left)
  · intro before node follows isOut
    exact final.layered.precedes isOut ⟨sources before (List.ne_nil_of_mem follows), follows⟩

theorem idxOf_map_of_injective {α : Type u} {β : Type v} [DecidableEq α] [DecidableEq β] (image : α → β)
    {list : List α} {element : α}
    (injective : ∀ other ∈ list, image other = image element → other = element) :
    (list.map image).idxOf (image element) = list.idxOf element := by
  induction list with
  | nil => rfl
  | cons first list ih =>
      rw [List.map_cons, List.idxOf_cons, List.idxOf_cons]
      by_cases same : first = element
      · simp [same]
      · have differs : image first ≠ image element :=
          fun equal => same (injective first List.mem_cons_self equal)
        rw [ih fun other member => injective other (List.mem_cons_of_mem _ member)]
        rw [beq_false_of_ne same, beq_false_of_ne differs]

theorem idxOf_lt_iff_of_sorted {list : List ι} (sorted : list.Pairwise (· < ·))
    {first second : ι} (isFirst : first ∈ list) (isSecond : second ∈ list) :
    list.idxOf first < list.idxOf second ↔ first < second := by
  have along : ∀ left right, left ∈ list → right ∈ list → list.idxOf left < list.idxOf right →
      left < right := by
    intro left right isLeft isRight before
    have below := List.pairwise_iff_getElem.mp sorted _ _ (List.idxOf_lt_length_of_mem isLeft)
      (List.idxOf_lt_length_of_mem isRight) before
    rwa [List.getElem_idxOf, List.getElem_idxOf] at below
  refine ⟨along first second isFirst isSecond, fun below => ?_⟩
  rcases Nat.lt_trichotomy (list.idxOf first) (list.idxOf second) with before | same | behind
  · exact before
  · rw [List.idxOf_inj isFirst] at same
    exact absurd below (same ▸ lt_irrefl first)
  · exact absurd (below.trans (along second first isSecond isFirst behind)) (lt_irrefl first)

section Rest

variable {sorted rest : List ι} {β : Type v} [DecidableEq β] {image : ι → β}

/-- When the nodes left over follow in their order, a node stands behind a predecessor of it
unless a cycle leads to that predecessor and its turn comes later. -/
theorem Sorted.before_iff (isSorted : Sorted successors nodes sorted)
    (increasing : rest.Pairwise (· < ·))
    (inRest : ∀ node, node ∈ rest ↔ node ∈ nodes ∧ node ∉ sorted)
    (injective : ∀ first ∈ nodes, ∀ second ∈ nodes, image first = image second → first = second)
    {before : ι} (isNode : before ∈ nodes) (isNode' : node ∈ nodes)
    (follows : Follows successors before node) :
    ((sorted ++ rest).map image).idxOf (image before) <
        ((sorted ++ rest).map image).idxOf (image node) ↔
      (Stuck successors before → before < node) := by
  have listed : ∀ other ∈ sorted ++ rest, other ∈ nodes := by
    intro other member
    rcases List.mem_append.mp member with isOut | isLeft
    · exact ((isSorted.mem_iff other).mp isOut).1
    · exact ((inRest other).mp isLeft).1
  rw [idxOf_map_of_injective image fun other member => injective other (listed other member) _ isNode,
    idxOf_map_of_injective image fun other member => injective other (listed other member) _ isNode']
  by_cases isOut : before ∈ sorted
  · have free := ((isSorted.mem_iff before).mp isOut).2
    refine iff_of_true ?_ fun stuck => absurd stuck free
    rw [List.idxOf_append_of_mem isOut]
    by_cases isOut' : node ∈ sorted
    · rw [List.idxOf_append_of_mem isOut']
      exact (isSorted.precedes before node follows isOut').2
    · rw [List.idxOf_append_of_notMem isOut']
      exact (List.idxOf_lt_length_of_mem isOut).trans_le (Nat.le_add_right _ _)
  · have stuck : Stuck successors before := by
      by_contra free
      exact isOut ((isSorted.mem_iff before).mpr ⟨isNode, free⟩)
    have isOut' : node ∉ sorted :=
      fun isOut' => isOut (isSorted.precedes before node follows isOut').1
    rw [List.idxOf_append_of_notMem isOut, List.idxOf_append_of_notMem isOut',
      Nat.add_lt_add_iff_left, idxOf_lt_iff_of_sorted increasing
        ((inRest before).mpr ⟨isNode, isOut⟩) ((inRest node).mpr ⟨isNode', isOut'⟩)]
    exact ⟨fun below _ => below, fun below => below stuck⟩

end Rest

end Kahn

end Rayzor.Library
