import Mathlib

/-!
Contract: rooted directed graphs, the paths from their entry, and dominance.

Owns: entry paths and how they split, reachability, dominance with its order
laws on reachable nodes, the two ways to move a dominance along an edge, and
sets of nodes that every path meets.
-/

namespace Rayzor.Library.Graph

universe u

variable {ι : Type u} {edge : ι → ι → Prop} {entry : ι}

/-- A path from the entry, listed newest node first. -/
inductive EntryPath (edge : ι → ι → Prop) (entry : ι) : List ι → ι → Prop where
  | start : EntryPath edge entry [entry] entry
  | step {path : List ι} {a b : ι} (earlier : EntryPath edge entry path a) (along : edge a b) :
      EntryPath edge entry (b :: path) b

def Reachable (edge : ι → ι → Prop) (entry node : ι) : Prop :=
  ∃ path, EntryPath edge entry path node

/-- `d` lies on every path from the entry to `node`. -/
def Dominates (edge : ι → ι → Prop) (entry d node : ι) : Prop :=
  ∀ path, EntryPath edge entry path node → d ∈ path

namespace EntryPath

theorem last_mem {path : List ι} {node : ι} (walk : EntryPath edge entry path node) :
    node ∈ path := by
  cases walk <;> exact List.mem_cons_self

theorem entry_mem {path : List ι} {node : ι} (walk : EntryPath edge entry path node) :
    entry ∈ path := by
  induction walk with
  | start => exact List.mem_cons_self
  | step _ _ ih => exact List.mem_cons_of_mem _ ih

theorem upTo {path : List ι} {node middle : ι} (walk : EntryPath edge entry path node)
    (member : middle ∈ path) :
    ∃ front, EntryPath edge entry front middle ∧ front <:+ path := by
  induction walk with
  | start =>
      rw [List.mem_singleton] at member
      exact ⟨[entry], member ▸ .start, List.suffix_refl _⟩
  | step earlier along ih =>
      rcases List.mem_cons.mp member with isLast | inEarlier
      · subst isLast
        exact ⟨_, .step earlier along, List.suffix_refl _⟩
      · obtain ⟨front, walk, within⟩ := ih inEarlier
        exact ⟨front, walk, within.trans (List.suffix_cons _ _)⟩

/-- The part up to a node other than the last is strictly shorter. -/
theorem upTo_shorter {path : List ι} {node middle : ι} (walk : EntryPath edge entry path node)
    (member : middle ∈ path) (different : middle ≠ node) :
    ∃ front, EntryPath edge entry front middle ∧ front.length < path.length ∧
      front <:+ path := by
  cases walk with
  | start =>
      rw [List.mem_singleton] at member
      exact absurd member different
  | step earlier along =>
      obtain ⟨front, walk, within⟩ :=
        earlier.upTo ((List.mem_cons.mp member).resolve_left different)
      exact ⟨front, walk, Nat.lt_succ_of_le within.length_le, within.trans (List.suffix_cons _ _)⟩

theorem reachable {path : List ι} {node : ι} (walk : EntryPath edge entry path node) :
    Reachable edge entry node := ⟨path, walk⟩

theorem mem_reachable {path : List ι} {node middle : ι} (walk : EntryPath edge entry path node)
    (member : middle ∈ path) : Reachable edge entry middle := by
  obtain ⟨front, walk, -⟩ := walk.upTo member
  exact walk.reachable

theorem simple {path : List ι} {node : ι} (walk : EntryPath edge entry path node) :
    ∃ shorter, EntryPath edge entry shorter node ∧ shorter ⊆ path ∧ shorter.Nodup := by
  classical
  induction walk with
  | start => exact ⟨[entry], .start, List.Subset.refl _, List.nodup_singleton entry⟩
  | @step path a b earlier along ih =>
      obtain ⟨shorter, walk, within, distinct⟩ := ih
      by_cases repeated : b ∈ shorter
      · obtain ⟨front, walk', isSuffix⟩ := walk.upTo repeated
        exact ⟨front, walk', fun node inside => List.mem_cons_of_mem _
          (within (isSuffix.subset inside)), distinct.sublist isSuffix.sublist⟩
      · exact ⟨b :: shorter, .step walk along, List.cons_subset_cons _ within,
          List.nodup_cons.mpr ⟨repeated, distinct⟩⟩

theorem append {front back : List ι} {middle node : ι} (first : EntryPath edge entry front middle)
    (second : EntryPath edge middle back node) :
    ∃ earlier, front = middle :: earlier ∧ EntryPath edge entry (back ++ earlier) node := by
  obtain ⟨earlier, rfl⟩ : ∃ earlier, front = middle :: earlier := by
    cases first with
    | start => exact ⟨[], rfl⟩
    | @step path _ _ _ _ => exact ⟨path, rfl⟩
  refine ⟨earlier, rfl, ?_⟩
  induction second with
  | start => exact first
  | step _ along ih => exact .step ih along

theorem head {path : List ι} {node : ι} (walk : EntryPath edge entry path node) :
    ∃ earlier, path = node :: earlier := by
  cases walk with
  | start => exact ⟨[], rfl⟩
  | @step path _ _ _ _ => exact ⟨path, rfl⟩

end EntryPath

theorem Reachable.start : Reachable edge entry entry := ⟨_, .start⟩

theorem Reachable.step {a b : ι} (reachable : Reachable edge entry a) (along : edge a b) :
    Reachable edge entry b := by
  obtain ⟨path, walk⟩ := reachable
  exact ⟨b :: path, .step walk along⟩

namespace Dominates

theorem refl (node : ι) : Dominates edge entry node node := fun _ walk => walk.last_mem

theorem entry_left (node : ι) : Dominates edge entry entry node := fun _ walk => walk.entry_mem

theorem trans {d e node : ι} (first : Dominates edge entry d e)
    (second : Dominates edge entry e node) : Dominates edge entry d node := by
  intro path walk
  obtain ⟨front, walk', within⟩ := walk.upTo (second path walk)
  exact within.subset (first front walk')

/-- Two reachable nodes that dominate each other are the same: on a shortest
path each would have to come before the other. -/
theorem antisymm {d node : ι} (reachable : Reachable edge entry node)
    (first : Dominates edge entry d node) (second : Dominates edge entry node d) : d = node := by
  by_contra different
  obtain ⟨path, walk⟩ := reachable
  induction size : path.length using Nat.strong_induction_on generalizing path with
  | _ _ shorter =>
    obtain ⟨front, walk', less, -⟩ := walk.upTo_shorter (first path walk) different
    obtain ⟨front', walk'', within⟩ := walk'.upTo (second front walk')
    exact shorter front'.length (size ▸ lt_of_le_of_lt within.length_le less) front' walk'' rfl

theorem of_edge {d a b : ι} (dominates : Dominates edge entry d b) (along : edge a b)
    (different : d ≠ b) : Dominates edge entry d a := by
  intro path walk
  exact (List.mem_cons.mp (dominates _ (.step walk along))).resolve_left different

theorem of_only_predecessor {a b : ι} (only : ∀ other, edge other b → other = a)
    (inner : b ≠ entry) : Dominates edge entry a b := by
  intro path walk
  cases walk with
  | start => exact absurd rfl inner
  | step earlier along =>
      rw [← only _ along]
      exact List.mem_cons_of_mem _ earlier.last_mem

end Dominates

/-- Every path from the entry to `node` meets `Marked`. -/
def Met (edge : ι → ι → Prop) (entry : ι) (Marked : ι → Prop) (node : ι) : Prop :=
  ∀ path, EntryPath edge entry path node → ∃ d ∈ path, Marked d

namespace Met

variable {Marked : ι → Prop}

theorem of_marked {node : ι} (marked : Marked node) : Met edge entry Marked node :=
  fun _ walk => ⟨node, walk.last_mem, marked⟩

theorem of_edge {a b : ι} (met : Met edge entry Marked b) (along : edge a b)
    (unmarked : ¬Marked b) : Met edge entry Marked a := by
  intro path walk
  obtain ⟨d, member, marked⟩ := met _ (.step walk along)
  rcases List.mem_cons.mp member with rfl | earlier
  · exact absurd marked unmarked
  · exact ⟨d, earlier, marked⟩

theorem of_dominates {d node : ι} (marked : Marked d) (dominates : Dominates edge entry d node) :
    Met edge entry Marked node :=
  fun path walk => ⟨d, dominates path walk, marked⟩

theorem of_dominated {d node : ι} (met : Met edge entry Marked d)
    (dominates : Dominates edge entry d node) : Met edge entry Marked node := by
  intro path walk
  obtain ⟨front, walk', within⟩ := walk.upTo (dominates path walk)
  obtain ⟨marked, member, isMarked⟩ := met front walk'
  exact ⟨marked, within.subset member, isMarked⟩

theorem dominates {d node : ι} (only : ∀ other, Marked other → other = d)
    (met : Met edge entry Marked node) : Dominates edge entry d node := by
  intro path walk
  obtain ⟨other, member, marked⟩ := met path walk
  rwa [← only other marked]

end Met

end Rayzor.Library.Graph
