import Rayzor.Library.DepthFirst
import Rayzor.Library.OrdMap
import Rayzor.Library.Worklist

/-!
Contract: the strongly connected components of a graph in one depth-first search.

Owns: the search with indices, low links and a stack; that it ends; and that the components it
puts out are the classes of nodes that lead to each other, each once, and cover what the roots
lead to.

Does not own: what a component is used for. The graph is a function from a node to the list of
its successors, closed on some finite list of nodes.
-/

namespace Rayzor.Library

universe u

variable {ι : Type u} [LinearOrder ι]

/-- `stack` has its top in front. -/
structure Tarjan (ι : Type u) [LinearOrder ι] where
  counter : Nat
  stack : List ι
  indices : OrdMap ι Nat
  lowlinks : OrdMap ι Nat
  onStack : List ι
  components : List (List ι)

namespace Tarjan

def start : Tarjan ι := ⟨0, [], OrdMap.empty, OrdMap.empty, [], []⟩

def enter (search : Tarjan ι) (node : ι) : Tarjan ι :=
  { search with
      counter := search.counter + 1
      stack := node :: search.stack
      indices := search.indices.insert node search.counter
      lowlinks := search.lowlinks.insert node search.counter
      onStack := node :: search.onStack }

def lower (search : Tarjan ι) (node : ι) (bound : Nat) : Option (Tarjan ι) :=
  (search.lowlinks.get? node).map fun link =>
    { search with lowlinks := search.lowlinks.insert node (min link bound) }

def meet (connect : ι → Tarjan ι → Option (Tarjan ι)) (node : ι) (search : Tarjan ι) (next : ι) :
    Option (Tarjan ι) :=
  if (search.indices.get? next).isNone then
    (connect next search).bind fun below =>
      (below.lowlinks.get? next).bind fun link => below.lower node link
  else if search.onStack.contains next then
    (search.indices.get? next).bind fun index => search.lower node index
  else some search

def popUntil (node : ι) : List ι → Option (List ι × List ι)
  | [] => none
  | top :: stack =>
      if top = node then some ([top], stack)
      else (popUntil node stack).map fun popped => (top :: popped.1, popped.2)

/-- Behind its successors, a node whose link is its own index ends a component. -/
def finish (search : Tarjan ι) (node : ι) : Option (Tarjan ι) :=
  (search.lowlinks.get? node).bind fun link =>
    (search.indices.get? node).bind fun index =>
      if link = index then
        (popUntil node search.stack).map fun popped => { search with
          stack := popped.2
          onStack := search.onStack.filter (!popped.1.contains ·)
          components := search.components ++ [popped.1] }
      else some search

end Tarjan

/-- Visit a node and what is not visited below it. `fuel` bounds the depth of the recursion. -/
def strongconnect (successors : ι → List ι) : Nat → ι → Tarjan ι → Option (Tarjan ι)
  | 0, _, _ => none
  | fuel + 1, node, search =>
      ((successors node).foldlM (Tarjan.meet (strongconnect successors fuel) node)
        (search.enter node)).bind fun below => below.finish node

def tarjan (successors : ι → List ι) (fuel : Nat) (roots : List ι) : Option (Tarjan ι) :=
  roots.foldlM (fun search root =>
    if (search.indices.get? root).isNone then strongconnect successors fuel root search
    else some search) Tarjan.start

namespace Tarjan

open Worklist (Follows)
open Relation (ReflTransGen)

variable {successors : ι → List ι} {roots gray : List ι} {search search' : Tarjan ι} {node : ι}

def Reaches (successors : ι → List ι) : ι → ι → Prop := ReflTransGen (Follows successors)

def Visited (search : Tarjan ι) (node : ι) : Prop := ∃ index, search.indices.get? node = some index

def index (search : Tarjan ι) (node : ι) : Nat := (search.indices.get? node).getD 0

/-- The class of the nodes that lead to each other. -/
def IsComponent (successors : ι → List ι) (component : List ι) : Prop :=
  ∀ node ∈ component, ∀ other, other ∈ component ↔
    Reaches successors node other ∧ Reaches successors other node

/-- The nodes put out. -/
def settled (search : Tarjan ι) : List ι := search.components.flatten

/-- The search while the nodes of `gray` are being visited. On the stack nodes lead upwards, and
each leads down to one that is being visited; what was put out leads to nothing else. -/
structure Searching (successors : ι → List ι) (roots : List ι) (search : Tarjan ι)
    (gray : List ι) : Prop where
  below : ∀ node index, search.indices.get? node = some index → index < search.counter
  onStack : ∀ node, node ∈ search.onStack ↔ node ∈ search.stack
  sorted : search.stack.Pairwise fun upper lower => search.index lower < search.index upper
  visited : ∀ node, search.Visited node ↔ node ∈ search.stack ∨ node ∈ search.settled
  apart : ∀ node ∈ search.stack, node ∉ search.settled
  visiting : gray ⊆ search.stack
  left : ∀ node, search.Visited node → node ∉ gray →
    ∀ next ∈ successors node, search.Visited next
  closed : ∀ node ∈ search.settled, ∀ next ∈ successors node, next ∈ search.settled
  components : ∀ component ∈ search.components, IsComponent successors component
  distinct : search.settled.Nodup
  upwards : ∀ lower ∈ search.stack, ∀ upper ∈ search.stack, search.index lower ≤ search.index upper →
    Reaches successors lower upper
  downwards : ∀ upper ∈ search.stack, ∃ lower ∈ gray, search.index lower ≤ search.index upper ∧
    Reaches successors upper lower
  found : ∀ node, search.Visited node → ∃ root ∈ roots, Reaches successors root node

/-- Nothing that has an index or a link loses it. -/
structure Keeps (search search' : Tarjan ι) : Prop where
  counter : search.counter ≤ search'.counter
  indices : ∀ node, search.Visited node → search'.indices.get? node = search.indices.get? node
  lowlinks : ∀ node, search.Visited node → search'.lowlinks.get? node = search.lowlinks.get? node

theorem Keeps.visited (keeps : Keeps search search') (isVisited : search.Visited node) :
    search'.Visited node := by
  obtain ⟨index, found⟩ := isVisited
  exact ⟨index, (keeps.indices node ⟨index, found⟩).trans found⟩

theorem Keeps.index (keeps : Keeps search search') (isVisited : search.Visited node) :
    search'.index node = search.index node := by
  unfold Tarjan.index
  rw [keeps.indices node isVisited]

theorem Keeps.trans {search'' : Tarjan ι} (first : Keeps search search')
    (second : Keeps search' search'') : Keeps search search'' where
  counter := first.counter.trans second.counter
  indices node isVisited :=
    (second.indices node (first.visited isVisited)).trans (first.indices node isVisited)
  lowlinks node isVisited :=
    (second.lowlinks node (first.visited isVisited)).trans (first.lowlinks node isVisited)

/-- What the search of a node leaves: nodes on top of the stack whose edges into the stack as it
was go no lower than the link of the node. -/
structure Connected (successors : ι → List ι) (search search' : Tarjan ι) (node : ι) : Prop where
  keeps : Keeps search search'
  visited : search'.Visited node
  link : ∃ link added, search'.lowlinks.get? node = some link ∧
    search'.stack = added ++ search.stack ∧
    (∀ upper ∈ added, ∀ next ∈ successors upper, next ∈ search.stack →
      link ≤ search.index next) ∧
    (search.counter ≤ link ∨ ∃ lower ∈ search'.stack, search'.index lower = link ∧
      Reaches successors node lower)

structure Scanning (successors : ι → List ι) (search search' : Tarjan ι) (node : ι)
    (past : List ι) : Prop where
  keeps : Keeps search search'
  index : search'.indices.get? node = some search.counter
  met : ∀ next ∈ past, search'.Visited next
  link : ∃ link added, search'.lowlinks.get? node = some link ∧
    search'.stack = added ++ node :: search.stack ∧
    (∀ upper ∈ added, ∀ next ∈ successors upper, next ∈ search.stack →
      link ≤ search.index next) ∧
    (∀ next ∈ past, next ∈ search.stack → link ≤ search.index next) ∧
    link ≤ search.counter ∧
    ∃ lower ∈ search'.stack, search'.index lower = link ∧ Reaches successors node lower

theorem Searching.index_lt (searching : Searching successors roots search gray)
    (isVisited : search.Visited node) : search.index node < search.counter := by
  obtain ⟨index, found⟩ := isVisited
  have below := searching.below node index found
  unfold Tarjan.index
  rw [found]
  exact below

theorem Searching.visited_of_stack (searching : Searching successors roots search gray)
    (member : node ∈ search.stack) : search.Visited node :=
  (searching.visited node).mpr (Or.inl member)

theorem keeps_enter (search : Tarjan ι) (fresh : ¬search.Visited node) :
    Keeps search (search.enter node) := by
  have apart : ∀ other, search.Visited other → other ≠ node := by
    rintro other isVisited rfl
    exact fresh isVisited
  exact ⟨Nat.le_succ _,
    fun other isVisited => OrdMap.get?_insert_of_ne _ _ (apart other isVisited),
    fun other isVisited => OrdMap.get?_insert_of_ne _ _ (apart other isVisited)⟩

theorem visited_enter (search : Tarjan ι) (node other : ι) :
    (search.enter node).Visited other ↔ other = node ∨ search.Visited other := by
  unfold Visited enter
  simp only [OrdMap.get?_insert]
  by_cases same : other = node
  · simp [same]
  · simp [same]

theorem index_enter_self (search : Tarjan ι) (node : ι) :
    (search.enter node).index node = search.counter := by
  unfold index enter
  rw [OrdMap.get?_insert_self]
  rfl

theorem Searching.enter (searching : Searching successors roots search gray)
    (fresh : ¬search.Visited node) (found : ∃ root ∈ roots, Reaches successors root node)
    (leads : ∀ lower ∈ gray, Reaches successors lower node) :
    Searching successors roots (search.enter node) (node :: gray) := by
  have keeps := keeps_enter search fresh
  have notStack : node ∉ search.stack :=
    fun member => fresh (searching.visited_of_stack member)
  have old : ∀ other ∈ search.stack, (search.enter node).index other = search.index other ∧
      search.index other < search.counter := fun other member =>
    ⟨keeps.index (searching.visited_of_stack member),
      searching.index_lt (searching.visited_of_stack member)⟩
  constructor
  · intro other index isIndex
    unfold Tarjan.enter at isIndex
    rw [OrdMap.get?_insert] at isIndex
    split_ifs at isIndex with same
    · rw [← Option.some_inj.mp isIndex]
      exact Nat.lt_succ_self _
    · exact (searching.below other index isIndex).trans (Nat.lt_succ_self _)
  · intro other
    show other ∈ node :: search.onStack ↔ other ∈ node :: search.stack
    rw [List.mem_cons, List.mem_cons, searching.onStack]
  · apply List.pairwise_cons.mpr
    constructor
    · intro lower member
      rw [(old lower member).1, index_enter_self]
      exact (old lower member).2
    · apply searching.sorted.imp_of_mem
      intro upper lower isUpper isLower less
      rw [(old lower isLower).1, (old upper isUpper).1]
      exact less
  · intro other
    rw [visited_enter, searching.visited other]
    show _ ↔ other ∈ node :: search.stack ∨ other ∈ search.settled
    rw [List.mem_cons, or_assoc]
  · intro other member
    rcases List.mem_cons.mp member with rfl | inStack
    · exact fun isSettled => fresh ((searching.visited _).mpr (Or.inr isSettled))
    · exact searching.apart other inStack
  · exact List.cons_subset_cons node searching.visiting
  · intro other isVisited notGray next follows
    rw [List.mem_cons, not_or] at notGray
    have before := ((visited_enter search node other).mp isVisited).resolve_left notGray.1
    exact keeps.visited (searching.left other before notGray.2 next follows)
  · exact searching.closed
  · exact searching.components
  · exact searching.distinct
  · intro lower isLower upper isUpper
    rcases List.mem_cons.mp isUpper with rfl | inStack
    · intro _
      rcases List.mem_cons.mp isLower with rfl | inStack'
      · exact .refl
      · obtain ⟨base, isGray, -, path⟩ := searching.downwards lower inStack'
        exact path.trans (leads base isGray)
    · rcases List.mem_cons.mp isLower with rfl | inStack'
      · rw [index_enter_self, (old upper inStack).1]
        intro less
        exact absurd ((old upper inStack).2.trans_le less) (lt_irrefl _)
      · rw [(old upper inStack).1, (old lower inStack').1]
        exact searching.upwards lower inStack' upper inStack
  · intro upper isUpper
    rcases List.mem_cons.mp isUpper with rfl | inStack
    · exact ⟨upper, List.mem_cons_self, le_rfl, .refl⟩
    · obtain ⟨lower, isGray, less, path⟩ := searching.downwards upper inStack
      refine ⟨lower, List.mem_cons_of_mem _ isGray, ?_, path⟩
      rw [(old upper inStack).1, (old lower (searching.visiting isGray)).1]
      exact less
  · intro other isVisited
    rcases (visited_enter search node other).mp isVisited with rfl | before
    · exact found
    · exact searching.found other before

/-- The loop starts with the node alone on top of the stack. -/
theorem scanning_enter (fresh : ¬search.Visited node) :
    Scanning successors search (search.enter node) node [] where
  keeps := keeps_enter search fresh
  index := OrdMap.get?_insert_self _ _ _
  met next member := by cases member
  link := by
    refine ⟨search.counter, [], OrdMap.get?_insert_self _ _ _, rfl, ?_, ?_, le_rfl, node,
      List.mem_cons_self, index_enter_self search node, .refl⟩
    · intro upper member
      cases member
    · intro next member
      cases member

/-- Links are no part of the invariant. -/
theorem Searching.withLowlinks (searching : Searching successors roots search gray)
    (lowlinks : OrdMap ι Nat) :
    Searching successors roots { search with lowlinks := lowlinks } gray :=
  ⟨searching.below, searching.onStack, searching.sorted, searching.visited, searching.apart,
    searching.visiting, searching.left, searching.closed, searching.components, searching.distinct,
    searching.upwards, searching.downwards, searching.found⟩

theorem lower_eq {link bound : Nat} (found : search.lowlinks.get? node = some link) :
    search.lower node bound =
      some { search with lowlinks := search.lowlinks.insert node (min link bound) } := by
  unfold lower
  rw [found, Option.map_some]

/-- Only the link of the node changes, which had none before it was entered. -/
theorem Keeps.lowered (keeps : Keeps search search') (fresh : ¬search.Visited node) (link : Nat) :
    Keeps search { search' with lowlinks := search'.lowlinks.insert node link } where
  counter := keeps.counter
  indices := keeps.indices
  lowlinks other isVisited := by
    have differs : other ≠ node := by
      rintro rfl
      exact fresh isVisited
    exact (OrdMap.get?_insert_of_ne _ _ differs).trans (keeps.lowlinks other isVisited)

section Step

variable {next : ι} {past : List ι}

theorem Scanning.visited (scanning : Scanning successors search search' node past) :
    search'.Visited node := ⟨_, scanning.index⟩

/-- Nodes that are on the stack once the node is entered were there or lie above it. -/
theorem Scanning.counter_lt (scanning : Scanning successors search search' node past)
    (searching : Searching successors roots search' gray) : search.counter < search'.counter :=
  searching.below node _ scanning.index

theorem Scanning.connected (scanning : Scanning successors search search' node past)
    (fresh : ¬search.Visited node) (searching : Searching successors roots search' (node :: gray))
    (before : Searching successors roots search gray)
    (follows : next ∈ successors node) (isNew : ¬search'.Visited next) {below : Tarjan ι}
    (connected : Connected successors search' below next)
    (searching' : Searching successors roots below (node :: gray)) :
    ∃ link, below.lowlinks.get? next = some link ∧ ∃ after, below.lower node link = some after ∧
      Searching successors roots after (node :: gray) ∧
      Scanning successors search after node (next :: past) := by
  obtain ⟨link, added, isLink, onTop, apart, met, low, lower, inStack, isIndex, path⟩ :=
    scanning.link
  obtain ⟨link', added', isLink', onTop', apart', low'⟩ := connected.link
  have isLink'' : below.lowlinks.get? node = some link :=
    (connected.keeps.lowlinks node scanning.visited).trans isLink
  refine ⟨link', isLink', _, lower_eq isLink'', searching'.withLowlinks _, ?_⟩
  constructor
  · exact (scanning.keeps.trans connected.keeps).lowered fresh _
  · exact (connected.keeps.indices node scanning.visited).trans scanning.index
  · intro other member
    rcases List.mem_cons.mp member with rfl | earlier
    · exact connected.visited
    · exact connected.keeps.visited (scanning.met other earlier)
  · refine ⟨min link link', added' ++ added, OrdMap.get?_insert_self _ _ _, ?_, ?_, ?_, ?_, ?_⟩
    · rw [List.append_assoc, ← onTop]
      exact onTop'
    · intro upper member other edge isOld
      have isOld' : other ∈ search'.stack := by
        rw [onTop]
        exact List.mem_append_right _ (List.mem_cons_of_mem _ isOld)
      rcases List.mem_append.mp member with inAdded' | inAdded
      · have least := apart' upper inAdded' other edge isOld'
        rw [scanning.keeps.index (before.visited_of_stack isOld)] at least
        exact (min_le_right _ _).trans least
      · exact (min_le_left _ _).trans (apart upper inAdded other edge isOld)
    · intro other member isOld
      rcases List.mem_cons.mp member with rfl | earlier
      · exact absurd (scanning.keeps.visited (before.visited_of_stack isOld)) isNew
      · exact (min_le_left _ _).trans (met other earlier isOld)
    · exact (min_le_left _ _).trans low
    · rcases le_total link link' with less | less
      · rw [min_eq_left less]
        refine ⟨lower, ?_, ?_, path⟩
        · show lower ∈ below.stack
          rw [onTop']
          exact List.mem_append_right _ inStack
        · exact (connected.keeps.index (searching.visited_of_stack inStack)).trans isIndex
      · rw [min_eq_right less]
        rcases low' with popped | ⟨lower', inStack', isIndex', path'⟩
        · have above := scanning.counter_lt searching
          exact absurd (popped.trans (less.trans low)) (not_le.mpr above)
        · exact ⟨lower', inStack', isIndex', .head follows path'⟩

theorem Scanning.onStack (scanning : Scanning successors search search' node past)
    (fresh : ¬search.Visited node) (searching : Searching successors roots search' (node :: gray))
    (before : Searching successors roots search gray)
    (follows : next ∈ successors node) (inStack' : next ∈ search'.stack) :
    ∃ index, search'.indices.get? next = some index ∧
      ∃ after, search'.lower node index = some after ∧
        Searching successors roots after (node :: gray) ∧
        Scanning successors search after node (next :: past) := by
  obtain ⟨link, added, isLink, onTop, apart, met, low, lower, inStack, isIndex, path⟩ :=
    scanning.link
  obtain ⟨index, isIndex'⟩ := searching.visited_of_stack inStack'
  have same : search'.index next = index := by
    unfold Tarjan.index
    rw [isIndex']
    rfl
  refine ⟨index, isIndex', _, lower_eq isLink, searching.withLowlinks _, ?_⟩
  constructor
  · exact scanning.keeps.lowered fresh _
  · exact scanning.index
  · intro other member
    rcases List.mem_cons.mp member with rfl | earlier
    · exact searching.visited_of_stack inStack'
    · exact scanning.met other earlier
  · refine ⟨min link index, added, OrdMap.get?_insert_self _ _ _, onTop, ?_, ?_, ?_, ?_⟩
    · intro upper member other edge isOld
      exact (min_le_left _ _).trans (apart upper member other edge isOld)
    · intro other member isOld
      rcases List.mem_cons.mp member with rfl | earlier
      · rw [scanning.keeps.index (before.visited_of_stack isOld)] at same
        exact (min_le_right _ _).trans (le_of_eq same.symm)
      · exact (min_le_left _ _).trans (met other earlier isOld)
    · exact (min_le_left _ _).trans low
    · rcases le_total link index with less | less
      · rw [min_eq_left less]
        exact ⟨lower, inStack, isIndex, path⟩
      · rw [min_eq_right less]
        exact ⟨next, inStack', same, .single follows⟩

theorem Scanning.settled (scanning : Scanning successors search search' node past)
    (isVisited : search'.Visited next) (notStack : next ∉ search'.stack) : Scanning successors search search' node (next :: past) := by
  obtain ⟨link, added, isLink, onTop, apart, met, rest⟩ := scanning.link
  constructor
  · exact scanning.keeps
  · exact scanning.index
  · intro other member
    rcases List.mem_cons.mp member with rfl | earlier
    · exact isVisited
    · exact scanning.met other earlier
  · refine ⟨link, added, isLink, onTop, apart, ?_, rest⟩
    intro other member isOld
    rcases List.mem_cons.mp member with rfl | earlier
    · rw [onTop] at notStack
      exact absurd (List.mem_append_right _ (List.mem_cons_of_mem _ isOld)) notStack
    · exact met other earlier isOld

end Step

theorem popUntil_append {added stack : List ι} (notAdded : node ∉ added) :
    popUntil node (added ++ node :: stack) = some (added ++ [node], stack) := by
  induction added with
  | nil => simp [popUntil]
  | cons top added ih =>
      rw [List.mem_cons, not_or] at notAdded
      rw [List.cons_append, popUntil, if_neg (Ne.symm notAdded.1), ih notAdded.2]
      rfl

theorem Searching.stack_nodup (searching : Searching successors roots search gray) :
    search.stack.Nodup := by
  apply searching.sorted.imp
  intro upper lower less same
  rw [same] at less
  exact lt_irrefl _ less

structure Leaving (successors : ι → List ι) (roots gray : List ι) (search search' : Tarjan ι)
    (node : ι) (added : List ι) : Prop where
  searching : Searching successors roots search' (node :: gray)
  before : Searching successors roots search gray
  onTop : search'.stack = added ++ node :: search.stack
  keeps : Keeps search search'
  index : search'.indices.get? node = some search.counter
  met : ∀ next ∈ successors node, search'.Visited next

namespace Leaving

variable {added : List ι} (leaving : Leaving successors roots gray search search' node added)
include leaving

theorem left (other : ι) (isVisited : search'.Visited other) (notGray : other ∉ gray) :
    ∀ next ∈ successors other, search'.Visited next := by
  by_cases same : other = node
  · rw [same]
    exact leaving.met
  · apply leaving.searching.left other isVisited
    rw [List.mem_cons, not_or]
    exact ⟨same, notGray⟩

theorem index_eq : search'.index node = search.counter := by
  unfold Tarjan.index
  rw [leaving.index]
  rfl

theorem keep {link : Nat} (less : link < search.counter)
    (low : ∃ lower ∈ search'.stack, search'.index lower = link ∧ Reaches successors node lower) :
    Searching successors roots search' gray := by
  have isIndex := leaving.index_eq
  have searching := leaving.searching
  refine ⟨searching.below, searching.onStack, searching.sorted, searching.visited, searching.apart,
    ?_, leaving.left, searching.closed, searching.components, searching.distinct,
    searching.upwards, ?_, searching.found⟩
  · exact fun other member => leaving.searching.visiting (List.mem_cons_of_mem _ member)
  · intro upper inStack
    obtain ⟨base, isGray, below, path⟩ := leaving.searching.downwards upper inStack
    rcases List.mem_cons.mp isGray with rfl | isGray'
    · obtain ⟨lower, inStack', isLink, path'⟩ := low
      obtain ⟨base', isGray', below', path''⟩ := leaving.searching.downwards lower inStack'
      have further : search'.index base' < search.counter := by omega
      rcases List.mem_cons.mp isGray' with rfl | isGray''
      · omega
      · exact ⟨base', isGray'', by omega, path.trans (path'.trans path'')⟩
    · exact ⟨base, isGray', below, path⟩

theorem mutuals (other : ι) (member : other ∈ added ++ [node]) :
    other ∈ search'.stack ∧ Reaches successors node other ∧ Reaches successors other node := by
  have isIndex := leaving.index_eq
  have inStack : ∀ other ∈ added ++ [node], other ∈ search'.stack := by
    intro other member
    rw [leaving.onTop]
    rcases List.mem_append.mp member with inAdded | isNode
    · exact List.mem_append_left _ inAdded
    · rw [List.mem_singleton.mp isNode]
      exact List.mem_append_right _ List.mem_cons_self
  have isNode : node ∈ search'.stack := inStack node (List.mem_append_right _ List.mem_cons_self)
  have above : ∀ other ∈ added ++ [node], search'.index node ≤ search'.index other := by
    intro other member
    have sorted := leaving.searching.sorted
    rw [leaving.onTop] at sorted
    rcases List.mem_append.mp member with inAdded | isNode
    · exact le_of_lt ((List.pairwise_append.mp sorted).2.2 other inAdded node List.mem_cons_self)
    · rw [List.mem_singleton.mp isNode]
  refine ⟨inStack other member, leaving.searching.upwards node isNode other (inStack other member)
    (above other member), ?_⟩
  obtain ⟨base, isGray, -, path⟩ := leaving.searching.downwards other (inStack other member)
  refine path.trans (leaving.searching.upwards base (leaving.searching.visiting isGray) node isNode ?_)
  rcases List.mem_cons.mp isGray with rfl | isGray'
  · exact le_rfl
  · have old := leaving.before.visited_of_stack (leaving.before.visiting isGray')
    rw [leaving.keeps.index old, isIndex]
    exact le_of_lt (leaving.before.index_lt old)

/-- With the link at the index of the node, nothing above it leads down past it. -/
theorem closed
    (apart : ∀ upper ∈ added, ∀ next ∈ successors upper, next ∈ search.stack →
      search.counter ≤ search.index next)
    (apart' : ∀ next ∈ successors node, next ∈ search.stack → search.counter ≤ search.index next)
    (other : ι) (member : other ∈ added ++ [node]) (next : ι) (follows : next ∈ successors other) :
    next ∈ added ++ [node] ∨ next ∈ search'.settled := by
  have inStack := (leaving.mutuals other member).1
  have nodup := leaving.searching.stack_nodup
  rw [leaving.onTop, List.append_cons] at nodup
  have notGray : other ∉ gray := fun isGray =>
    (List.nodup_append.mp nodup).2.2 other member other (leaving.before.visiting isGray) rfl
  have isVisited := leaving.left other
    (leaving.searching.visited_of_stack inStack) notGray next follows
  rcases (leaving.searching.visited next).mp isVisited with isStack | isSettled
  · rw [leaving.onTop, List.append_cons] at isStack
    rcases List.mem_append.mp isStack with inAdded | isOld
    · exact Or.inl inAdded
    · have low : search.counter ≤ search.index next := by
        rcases List.mem_append.mp member with inAdded | isNode
        · exact apart other inAdded next follows isOld
        · exact apart' next (List.mem_singleton.mp isNode ▸ follows) isOld
      exact absurd (leaving.before.index_lt (leaving.before.visited_of_stack isOld)) (not_lt.mpr low)
  · exact Or.inr isSettled

theorem putOut
    (apart : ∀ upper ∈ added, ∀ next ∈ successors upper, next ∈ search.stack →
      search.counter ≤ search.index next)
    (apart' : ∀ next ∈ successors node, next ∈ search.stack → search.counter ≤ search.index next) :
    Searching successors roots { search' with
      stack := search.stack
      onStack := search'.onStack.filter (!(added ++ [node]).contains ·)
      components := search'.components ++ [added ++ [node]] } gray := by
  have closed := leaving.closed apart apart'
  have nodup := leaving.searching.stack_nodup
  have shape : search'.stack = (added ++ [node]) ++ search.stack := by
    rw [leaving.onTop, List.append_cons]
  rw [shape] at nodup
  obtain ⟨nodupAdded, nodupOld, disjoint⟩ := List.nodup_append.mp nodup
  have isOld : ∀ other ∈ search.stack, other ∈ search'.stack := by
    intro other member
    rw [shape]
    exact List.mem_append_right _ member
  have isSettled : ∀ other, other ∈ (search'.components ++ [added ++ [node]]).flatten ↔
      other ∈ search'.settled ∨ other ∈ added ++ [node] := by
    intro other
    rw [List.flatten_append, List.mem_append]
    simp [settled]
  have leads : ∀ first last, Reaches successors first last →
      first ∈ added ++ [node] ∨ first ∈ search'.settled →
      last ∈ added ++ [node] ∨ last ∈ search'.settled := by
    intro first last path inside
    induction path with
    | refl => exact inside
    | tail _ follows ih =>
        rcases ih with inAdded | already
        · exact closed _ inAdded _ follows
        · exact Or.inr (leaving.searching.closed _ already _ follows)
  have stays : ∀ first last, Reaches successors first last → first ∈ search'.settled →
      last ∈ search'.settled := by
    intro first last path inside
    induction path with
    | refl => exact inside
    | tail _ follows ih => exact leaving.searching.closed _ ih _ follows
  constructor
  · exact leaving.searching.below
  · intro other
    show other ∈ search'.onStack.filter (!(added ++ [node]).contains ·) ↔ other ∈ search.stack
    rw [List.mem_filter, leaving.searching.onStack, Bool.not_eq_true', ← Bool.not_eq_true,
      List.contains_iff_mem, shape, List.mem_append]
    constructor
    · rintro ⟨inAdded | old, notAdded⟩
      · exact absurd inAdded notAdded
      · exact old
    · exact fun old => ⟨Or.inr old, fun inAdded => disjoint other inAdded other old rfl⟩
  · have sorted := leaving.searching.sorted
    rw [shape] at sorted
    exact (List.pairwise_append.mp sorted).2.1
  · intro other
    show search'.Visited other ↔ other ∈ search.stack ∨
      other ∈ (search'.components ++ [added ++ [node]]).flatten
    rw [isSettled, leaving.searching.visited, shape, List.mem_append]
    tauto
  · intro other old inSettled
    rcases (isSettled other).mp inSettled with already | inAdded
    · exact leaving.searching.apart other (isOld other old) already
    · exact disjoint other inAdded other old rfl
  · exact leaving.before.visiting
  · exact leaving.left
  · intro other inSettled next follows
    apply (isSettled next).mpr
    rcases (isSettled other).mp inSettled with already | inAdded
    · exact Or.inl (leaving.searching.closed other already next follows)
    · exact (closed other inAdded next follows).symm
  · intro component member
    rcases List.mem_append.mp member with earlier | isNew
    · exact leaving.searching.components component earlier
    · rw [List.mem_singleton.mp isNew]
      intro first isFirst other
      obtain ⟨inStack, down, up⟩ := leaving.mutuals first isFirst
      constructor
      · intro isOther
        obtain ⟨-, down', up'⟩ := leaving.mutuals other isOther
        exact ⟨up.trans down', up'.trans down⟩
      · rintro ⟨path, back⟩
        apply (leads first other path (Or.inl isFirst)).resolve_right
        intro already
        exact leaving.searching.apart first inStack (stays other first back already)
  · show (search'.components ++ [added ++ [node]]).flatten.Nodup
    rw [List.flatten_append, List.flatten_singleton]
    apply List.Nodup.append leaving.searching.distinct nodupAdded
    intro other already inAdded
    exact leaving.searching.apart other (leaving.mutuals other inAdded).1 already
  · intro lower isLower upper isUpper
    exact leaving.searching.upwards lower (isOld lower isLower) upper (isOld upper isUpper)
  · intro upper old
    obtain ⟨base, isGray, below, path⟩ := leaving.before.downwards upper old
    refine ⟨base, isGray, ?_, path⟩
    show search'.index base ≤ search'.index upper
    rw [leaving.keeps.index (leaving.before.visited_of_stack old),
      leaving.keeps.index (leaving.before.visited_of_stack (leaving.before.visiting isGray))]
    exact below
  · exact leaving.searching.found

end Leaving

/-- Leaving the node ends its visit. -/
theorem Scanning.finish (scanning : Scanning successors search search' node (successors node))
    (searching : Searching successors roots search' (node :: gray))
    (before : Searching successors roots search gray) :
    ∃ after, search'.finish node = some after ∧ Searching successors roots after gray ∧
      Connected successors search after node := by
  obtain ⟨link, added, isLink, onTop, apart, apart', low, lower⟩ := scanning.link
  have leaving : Leaving successors roots gray search search' node added :=
    ⟨searching, before, onTop, scanning.keeps, scanning.index, scanning.met⟩
  unfold Tarjan.finish
  rw [isLink, Option.bind_some, scanning.index, Option.bind_some]
  by_cases same : link = search.counter
  · subst same
    have notAdded : node ∉ added := by
      have nodup := searching.stack_nodup
      rw [onTop] at nodup
      exact fun inAdded => (List.nodup_append.mp nodup).2.2 node inAdded node List.mem_cons_self rfl
    rw [if_pos rfl, onTop, popUntil_append notAdded]
    refine ⟨_, rfl, leaving.putOut apart apart',
      ⟨scanning.keeps.counter, scanning.keeps.indices, scanning.keeps.lowlinks⟩,
      scanning.visited, search.counter, [], isLink, rfl, ?_, Or.inl le_rfl⟩
    intro upper member
    cases member
  · rw [if_neg same]
    have less : link < search.counter := lt_of_le_of_ne low same
    refine ⟨_, rfl, leaving.keep less lower, scanning.keeps, scanning.visited, link,
      added ++ [node], isLink, ?_, ?_, Or.inr lower⟩
    · rw [onTop, List.append_cons]
    · intro upper member
      rcases List.mem_append.mp member with inAdded | isNode
      · exact apart upper inAdded
      · rw [List.mem_singleton.mp isNode]
        exact apart'

section Run

open DepthFirst (unvisited unvisited_cons_lt unvisited_le)

variable {nodes : List ι} {fuel : Nat}

/-- What the search from a node does, with fuel for the nodes not visited yet. -/
def Connects (successors : ι → List ι) (roots nodes : List ι) (limit : Nat)
    (connect : ι → Tarjan ι → Option (Tarjan ι)) : Prop :=
  ∀ node search gray, node ∈ nodes → unvisited nodes search.indices.keys ≤ limit →
    ¬search.Visited node → (∃ root ∈ roots, Reaches successors root node) →
    (∀ lower ∈ gray, Reaches successors lower node) → Searching successors roots search gray →
    ∃ after, connect node search = some after ∧ Searching successors roots after gray ∧
      Connected successors search after node

variable {connect : ι → Tarjan ι → Option (Tarjan ι)}

theorem mem_keys_iff_visited : node ∈ search.indices.keys ↔ search.Visited node :=
  OrdMap.mem_keys_iff _ _

theorem Scanning.unvisited_lt {past : List ι} (isNode : node ∈ nodes) (fresh : ¬search.Visited node)
    (scanning : Scanning successors search search' node past) :
    unvisited nodes search'.indices.keys < unvisited nodes search.indices.keys := by
  have notKey : node ∉ search.indices.keys := fun isKey => fresh (mem_keys_iff_visited.mp isKey)
  have grown : node :: search.indices.keys ⊆ search'.indices.keys := by
    intro other member
    apply mem_keys_iff_visited.mpr
    rcases List.mem_cons.mp member with rfl | isKey
    · exact scanning.visited
    · exact scanning.keeps.visited (mem_keys_iff_visited.mp isKey)
  exact (unvisited_le grown).trans_lt (unvisited_cons_lt isNode notKey)

theorem scanning_meet (connects : Connects successors roots nodes fuel connect)
    (closed : ∀ node, successors node ⊆ nodes) {next : ι} {past : List ι}
    (follows : next ∈ successors node) (isNode : node ∈ nodes)
    (enough : unvisited nodes search.indices.keys ≤ fuel + 1) (fresh : ¬search.Visited node)
    (before : Searching successors roots search gray)
    (searching : Searching successors roots search' (node :: gray))
    (scanning : Scanning successors search search' node past)
    (leads : ∀ lower ∈ gray, Reaches successors lower node) :
    ∃ after, meet connect node search' next = some after ∧
      Searching successors roots after (node :: gray) ∧
      Scanning successors search after node (next :: past) := by
  unfold meet
  by_cases isVisited : search'.Visited next
  · have isSome : ¬(search'.indices.get? next).isNone = true := by
      obtain ⟨index, found⟩ := isVisited
      rw [found]
      exact Bool.false_ne_true
    rw [if_neg isSome]
    by_cases inStack : next ∈ search'.stack
    · obtain ⟨index, found, after, lowered, searching', scanning'⟩ :=
        scanning.onStack fresh searching before follows inStack
      rw [if_pos (List.contains_iff_mem.mpr ((searching.onStack next).mpr inStack)), found,
        Option.bind_some]
      exact ⟨after, lowered, searching', scanning'⟩
    · rw [if_neg fun onStack =>
        inStack ((searching.onStack next).mp (List.contains_iff_mem.mp onStack))]
      exact ⟨search', rfl, searching, scanning.settled isVisited inStack⟩
  · have isNone : (search'.indices.get? next).isNone = true := by
      cases found : search'.indices.get? next with
      | none => rfl
      | some index => exact absurd ⟨index, found⟩ isVisited
    rw [if_pos isNone]
    have less := scanning.unvisited_lt isNode fresh
    obtain ⟨root, isRoot, path⟩ := searching.found node scanning.visited
    have leads' : ∀ lower ∈ node :: gray, Reaches successors lower next := by
      intro lower member
      rcases List.mem_cons.mp member with rfl | isGray
      · exact .single follows
      · exact (leads lower isGray).tail follows
    obtain ⟨below, found, searching', connected⟩ := connects next search' (node :: gray)
      (closed node follows) (by omega) isVisited ⟨root, isRoot, path.tail follows⟩ leads' searching
    obtain ⟨link, isLink, after, lowered, searching'', scanning'⟩ :=
      scanning.connected fresh searching before follows isVisited connected searching'
    rw [found, Option.bind_some, isLink, Option.bind_some]
    exact ⟨after, lowered, searching'', scanning'⟩

theorem scanning_meetAll (connects : Connects successors roots nodes fuel connect)
    (closed : ∀ node, successors node ⊆ nodes) {rest past : List ι}
    (within : rest ⊆ successors node) (isNode : node ∈ nodes)
    (enough : unvisited nodes search.indices.keys ≤ fuel + 1) (fresh : ¬search.Visited node)
    (before : Searching successors roots search gray)
    (searching : Searching successors roots search' (node :: gray))
    (scanning : Scanning successors search search' node past)
    (leads : ∀ lower ∈ gray, Reaches successors lower node) :
    ∃ after, rest.foldlM (meet connect node) search' = some after ∧
      Searching successors roots after (node :: gray) ∧
      Scanning successors search after node (rest.reverse ++ past) := by
  induction rest generalizing search' past with
  | nil => exact ⟨search', rfl, searching, scanning⟩
  | cons next rest ih =>
      obtain ⟨isNext, within'⟩ := List.cons_subset.mp within
      obtain ⟨middle, met, searching', scanning'⟩ := scanning_meet connects closed isNext isNode
        enough fresh before searching scanning leads
      obtain ⟨after, folded, searching'', scanning''⟩ :=
        ih within' searching' scanning'
      refine ⟨after, ?_, searching'', ?_⟩
      · rw [List.foldlM_cons, met]
        exact folded
      · rw [List.reverse_cons, List.append_assoc]
        exact scanning''

theorem connects_strongconnect (closed : ∀ node, successors node ⊆ nodes) (fuel : Nat) :
    Connects successors roots nodes fuel (strongconnect successors fuel) := by
  induction fuel with
  | zero =>
      intro node search gray isNode enough fresh
      have less := unvisited_cons_lt isNode fun isKey => fresh (mem_keys_iff_visited.mp isKey)
      omega
  | succ fuel ih =>
      intro node search gray isNode enough fresh found leads before
      obtain ⟨below, folded, searching, scanning⟩ := scanning_meetAll ih closed
        (List.Subset.refl (successors node)) isNode enough fresh before
        (before.enter fresh found leads) (scanning_enter fresh) leads
      have all : Scanning successors search below node (successors node) :=
        ⟨scanning.keeps, scanning.index,
          fun next follows => scanning.met next (by simpa using follows), by
            obtain ⟨link, added, isLink, onTop, apart, apart', low⟩ := scanning.link
            exact ⟨link, added, isLink, onTop, apart,
              fun next follows => apart' next (by simpa using follows), low⟩⟩
      obtain ⟨after, finished, searching', connected⟩ := all.finish searching before
      refine ⟨after, ?_, searching', connected⟩
      rw [strongconnect, folded]
      exact finished

theorem searching_start : Searching successors roots (start : Tarjan ι) [] where
  below node index found := by cases found
  onStack node := Iff.rfl
  sorted := List.Pairwise.nil
  visited node := by
    constructor
    · rintro ⟨index, found⟩
      cases found
    · rintro (member | member) <;> cases member
  apart node member := by cases member
  visiting := List.nil_subset _
  left node isVisited := by
    obtain ⟨index, found⟩ := isVisited
    cases found
  closed node member := by cases member
  components component member := by cases member
  distinct := List.nodup_nil
  upwards lower member := by cases member
  downwards upper member := by cases member
  found node isVisited := by
    obtain ⟨index, found⟩ := isVisited
    cases found

theorem Searching.settled_iff (searching : Searching successors roots search []) :
    node ∈ search.settled ↔ search.Visited node := by
  rw [searching.visited]
  refine ⟨Or.inr, fun either => either.resolve_left fun inStack => ?_⟩
  obtain ⟨base, isGray, -⟩ := searching.downwards node inStack
  cases isGray

/-- The components the search puts out. -/
structure Components (successors : ι → List ι) (roots : List ι) (components : List (List ι)) :
    Prop where
  distinct : components.flatten.Nodup
  isComponent : ∀ component ∈ components, IsComponent successors component
  covers : ∀ node, node ∈ components.flatten ↔ ∃ root ∈ roots, Reaches successors root node

theorem searching_roots (closed : ∀ node, successors node ⊆ nodes) (listed : roots ⊆ nodes)
    (enough : nodes.length ≤ fuel) {rest : List ι} (within : rest ⊆ roots)
    (searching : Searching successors roots search []) :
    ∃ after, rest.foldlM (fun search root =>
        if (search.indices.get? root).isNone then strongconnect successors fuel root search
        else some search) search = some after ∧
      Searching successors roots after [] ∧ (∀ root ∈ rest, after.Visited root) ∧
      ∀ node, search.Visited node → after.Visited node := by
  induction rest generalizing search with
  | nil =>
      refine ⟨search, rfl, searching, ?_, fun _ isVisited => isVisited⟩
      intro root member
      cases member
  | cons root rest ih =>
      obtain ⟨isRoot, within'⟩ := List.cons_subset.mp within
      have first : ∃ middle, (if (search.indices.get? root).isNone then
            strongconnect successors fuel root search
          else some search) = some middle ∧ Searching successors roots middle [] ∧
          middle.Visited root ∧ ∀ node, search.Visited node → middle.Visited node := by
        cases found : search.indices.get? root with
        | some index =>
            exact ⟨search, rfl, searching, ⟨index, found⟩, fun _ isVisited => isVisited⟩
        | none =>
            have fresh : ¬search.Visited root := by
              rintro ⟨index, isIndex⟩
              rw [found] at isIndex
              cases isIndex
            obtain ⟨middle, connected, searching', connects⟩ := connects_strongconnect closed fuel
              root search [] (listed isRoot) ((List.length_filter_le _ _).trans enough) fresh
              ⟨root, isRoot, .refl⟩ (fun lower member => by cases member) searching
            exact ⟨middle, connected, searching', connects.visited,
              fun node isVisited => connects.keeps.visited isVisited⟩
      obtain ⟨middle, connected, searching', isVisited, grown⟩ := first
      obtain ⟨after, folded, searching'', areVisited, grown'⟩ :=
        ih within' searching'
      refine ⟨after, ?_, searching'', ?_, fun node before => grown' node (grown node before)⟩
      · rw [List.foldlM_cons, connected]
        exact folded
      · intro other member
        rcases List.mem_cons.mp member with rfl | later
        · exact grown' other isVisited
        · exact areVisited other later

theorem tarjan_spec (closed : ∀ node, successors node ⊆ nodes) (listed : roots ⊆ nodes)
    (enough : nodes.length ≤ fuel) :
    ∃ search, tarjan successors fuel roots = some search ∧
      Components successors roots search.components := by
  obtain ⟨search, folded, searching, areVisited, -⟩ :=
    searching_roots closed listed enough (List.Subset.refl roots) searching_start
  refine ⟨search, folded, searching.distinct, searching.components, fun node => ?_⟩
  rw [← settled, searching.settled_iff]
  constructor
  · exact searching.found node
  · rintro ⟨root, isRoot, path⟩
    induction path with
    | refl => exact areVisited root isRoot
    | tail _ follows ih =>
        exact searching.left _ ih List.not_mem_nil _ follows

end Run

end Tarjan

end Rayzor.Library
