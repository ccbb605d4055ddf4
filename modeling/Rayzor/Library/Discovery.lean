import Rayzor.Library.Worklist

/-!
Contract: what a worklist finds when a node is marked as soon as it is seen.

Owns: the loop with an effect for each node taken; that its bound is enough on a
finite graph; and that the nodes marked are those the work leads to.
-/

namespace Rayzor.Library

universe u v

variable {ι : Type u} [DecidableEq ι] {σ : Type v}

def freshOf (seen : List ι) : List ι → List ι
  | [] => []
  | node :: rest =>
      if node ∈ seen then freshOf seen rest else node :: freshOf (node :: seen) rest

/-- Take a node, mark its successors, and let those that are new join the work. There is no
result when the steps run out before the work does. -/
def discoverWith (successors : ι → List ι) (merge : List ι → List ι → List ι)
    (visit : σ → ι → σ) : Nat → List ι → List ι × σ → Option (List ι × σ)
  | _, [], state => some state
  | 0, _ :: _, _ => none
  | fuel + 1, node :: work, state =>
      let fresh := freshOf state.1 (successors node)
      discoverWith successors merge visit fuel (merge fresh work)
        (fresh.reverse ++ state.1, visit state.2 node)

namespace Discovery

open Worklist (Follows)

theorem mem_freshOf {seen nodes : List ι} {node : ι} :
    node ∈ freshOf seen nodes ↔ node ∈ nodes ∧ node ∉ seen := by
  induction nodes generalizing seen with
  | nil => simp [freshOf]
  | cons head rest ih =>
      rw [freshOf]
      split_ifs with again
      · rw [ih, List.mem_cons]
        constructor
        · exact fun both => ⟨Or.inr both.1, both.2⟩
        · rintro ⟨same | inRest, fresh⟩
          · exact absurd (same ▸ again) fresh
          · exact ⟨inRest, fresh⟩
      · simp only [List.mem_cons, ih]
        constructor
        · rintro (same | ⟨inRest, fresh⟩)
          · exact ⟨Or.inl same, same ▸ again⟩
          · exact ⟨Or.inr inRest, fun isSeen => fresh (Or.inr isSeen)⟩
        · rintro ⟨same | inRest, fresh⟩
          · exact Or.inl same
          · by_cases same : node = head
            · exact Or.inl same
            · exact Or.inr ⟨inRest, fun member => member.elim same fresh⟩

theorem nodup_freshOf (seen nodes : List ι) : (freshOf seen nodes).Nodup := by
  induction nodes generalizing seen with
  | nil => exact List.nodup_nil
  | cons head rest ih =>
      rw [freshOf]
      split_ifs with again
      · exact ih seen
      · refine List.nodup_cons.mpr ⟨fun member => ?_, ih _⟩
        exact (mem_freshOf.mp member).2 List.mem_cons_self

/-- Work is kept in some order. -/
def Merges (merge : List ι → List ι → List ι) : Prop :=
  ∀ fresh work, (merge fresh work).Perm (fresh ++ work)

/-- Nodes are seen or lie ahead, and those that are seen and not ahead have been taken. -/
structure Frontier (successors : ι → List ι) (roots seen₀ work seen taken : List ι) : Prop where
  sound : ∀ node ∈ seen, node ∈ seen₀ ∨
    ∃ root ∈ roots, Relation.TransGen (Follows successors) root node
  grown : seen₀ ⊆ seen
  pending : ∀ node ∈ work, node ∈ roots ∨ node ∈ seen
  closed : ∀ node ∈ taken, ∀ next ∈ successors node, next ∈ seen
  started : ∀ root ∈ roots, root ∈ taken ∨ root ∈ work
  met : ∀ node ∈ seen, node ∈ seen₀ ∨ node ∈ taken ∨ node ∈ work
  takenFound : ∀ node ∈ taken, node ∈ roots ∨ node ∈ seen

variable {successors : ι → List ι} {merge : List ι → List ι → List ι}
  {roots seen₀ work seen taken : List ι} {node : ι}

omit [DecidableEq ι] in
theorem Frontier.start (roots seen₀ : List ι) : Frontier successors roots seen₀ roots seen₀ [] where
  sound _ member := Or.inl member
  grown := List.Subset.refl _
  pending _ member := Or.inl member
  closed _ member := by cases member
  started _ member := Or.inr member
  met _ member := Or.inl member
  takenFound _ member := by cases member

omit [DecidableEq ι] in
/-- The path to a node taken, and from there one step on -/
theorem Frontier.reaches (frontier : Frontier successors roots seen₀ (node :: work) seen taken)
    (inside : seen₀ ⊆ roots) {next : ι} (follows : next ∈ successors node) :
    ∃ root ∈ roots, Relation.TransGen (Follows successors) root next := by
  rcases frontier.pending node List.mem_cons_self with isRoot | isSeen
  · exact ⟨node, isRoot, .single follows⟩
  · rcases frontier.sound node isSeen with isOld | ⟨root, isRoot, path⟩
    · exact ⟨node, inside isOld, .single follows⟩
    · exact ⟨root, isRoot, path.tail follows⟩

theorem Frontier.step (merges : Merges merge)
    (frontier : Frontier successors roots seen₀ (node :: work) seen taken)
    (inside : seen₀ ⊆ roots) :
    Frontier successors roots seen₀ (merge (freshOf seen (successors node)) work)
      ((freshOf seen (successors node)).reverse ++ seen) (node :: taken) := by
  have inWork : ∀ other, other ∈ merge (freshOf seen (successors node)) work ↔
      other ∈ freshOf seen (successors node) ∨ other ∈ work := by
    intro other
    rw [(merges _ _).mem_iff, List.mem_append]
  have inSeen : ∀ other, other ∈ (freshOf seen (successors node)).reverse ++ seen ↔
      other ∈ freshOf seen (successors node) ∨ other ∈ seen := by
    intro other
    rw [List.mem_append, List.mem_reverse]
  constructor
  · intro other member
    rcases (inSeen other).mp member with isFresh | isSeen
    · exact Or.inr (frontier.reaches inside (mem_freshOf.mp isFresh).1)
    · exact frontier.sound other isSeen
  · intro other member
    exact (inSeen other).mpr (Or.inr (frontier.grown member))
  · intro other member
    rcases (inWork other).mp member with isFresh | isWork
    · exact Or.inr ((inSeen other).mpr (Or.inl isFresh))
    · rcases frontier.pending other (List.mem_cons_of_mem _ isWork) with isRoot | isSeen
      · exact Or.inl isRoot
      · exact Or.inr ((inSeen other).mpr (Or.inr isSeen))
  · intro other member next follows
    rw [inSeen]
    rcases List.mem_cons.mp member with same | before
    · rw [same] at follows
      by_cases isSeen : next ∈ seen
      · exact Or.inr isSeen
      · exact Or.inl (mem_freshOf.mpr ⟨follows, isSeen⟩)
    · exact Or.inr (frontier.closed other before next follows)
  · intro root isRoot
    rcases frontier.started root isRoot with before | ahead
    · exact Or.inl (List.mem_cons_of_mem _ before)
    · rcases List.mem_cons.mp ahead with same | isWork
      · exact Or.inl (same ▸ List.mem_cons_self)
      · exact Or.inr ((inWork root).mpr (Or.inr isWork))
  · intro other member
    rcases (inSeen other).mp member with isFresh | isSeen
    · exact Or.inr (Or.inr ((inWork other).mpr (Or.inl isFresh)))
    · rcases frontier.met other isSeen with isOld | before | ahead
      · exact Or.inl isOld
      · exact Or.inr (Or.inl (List.mem_cons_of_mem _ before))
      · rcases List.mem_cons.mp ahead with same | isWork
        · exact Or.inr (Or.inl (same ▸ List.mem_cons_self))
        · exact Or.inr (Or.inr ((inWork other).mpr (Or.inr isWork)))
  · intro other member
    rcases List.mem_cons.mp member with same | before
    · rw [same]
      rcases frontier.pending node List.mem_cons_self with isRoot | isSeen
      · exact Or.inl isRoot
      · exact Or.inr ((inSeen node).mpr (Or.inr isSeen))
    · rcases frontier.takenFound other before with isRoot | isSeen
      · exact Or.inl isRoot
      · exact Or.inr ((inSeen other).mpr (Or.inr isSeen))

/-- What the loop ends with: every node the work leads to is marked, and the effects are those
of the nodes taken. -/
structure Discovered (successors : ι → List ι) (visit : σ → ι → σ) (roots seen₀ : List ι)
    (state : σ) (final : List ι × σ) (taken : List ι) : Prop where
  seen : ∀ node, node ∈ final.1 ↔ node ∈ seen₀ ∨
    ∃ root ∈ roots, Relation.TransGen (Follows successors) root node
  takes : ∀ node, node ∈ taken ↔
    ∃ root ∈ roots, Relation.ReflTransGen (Follows successors) root node
  effect : final.2 = taken.reverse.foldl visit state

omit [DecidableEq ι] in
theorem Frontier.discovered {visit : σ → ι → σ} {state : σ} (inside : seen₀ ⊆ roots)
    (frontier : Frontier successors roots seen₀ [] seen taken) :
    Discovered successors visit roots seen₀ state (seen, taken.reverse.foldl visit state) taken := by
  have startedAll : ∀ root ∈ roots, root ∈ taken := by
    intro root isRoot
    rcases frontier.started root isRoot with before | ahead
    · exact before
    · cases ahead
  have metAll : ∀ other ∈ seen, other ∈ taken := by
    intro other isSeen
    rcases frontier.met other isSeen with isOld | before | ahead
    · exact startedAll other (inside isOld)
    · exact before
    · cases ahead
  have takes : ∀ root ∈ roots, ∀ other, Relation.ReflTransGen (Follows successors) root other →
      other ∈ taken := by
    intro root isRoot other path
    induction path with
    | refl => exact startedAll root isRoot
    | tail _ follows ih =>
        exact metAll _ (frontier.closed _ ih _ follows)
  refine ⟨?_, ?_, rfl⟩
  · intro other
    refine ⟨frontier.sound other, ?_⟩
    rintro (isOld | ⟨root, isRoot, path⟩)
    · exact frontier.grown isOld
    · obtain ⟨last, before, follows⟩ := Relation.TransGen.tail'_iff.mp path
      exact frontier.closed last (takes root isRoot last before) other follows
  · intro other
    constructor
    · intro isTaken
      rcases frontier.takenFound other isTaken with isRoot | isSeen
      · exact ⟨other, isRoot, .refl⟩
      · rcases frontier.sound other isSeen with isOld | ⟨root, isRoot, path⟩
        · exact ⟨other, inside isOld, .refl⟩
        · exact ⟨root, isRoot, path.to_reflTransGen⟩
    · rintro ⟨root, isRoot, path⟩
      exact takes root isRoot other path

/-- The nodes that may still be marked -/
def unseen (nodes seen : List ι) : Nat := (nodes.filter (· ∉ seen)).length

theorem unseen_append {nodes : List ι} (distinct : nodes.Nodup) {fresh : List ι}
    (listed : fresh ⊆ nodes) (once : fresh.Nodup) (isFresh : ∀ node ∈ fresh, node ∉ seen) :
    unseen nodes (fresh.reverse ++ seen) + fresh.length = unseen nodes seen := by
  have parts : (nodes.filter (· ∉ seen)).Perm
      (nodes.filter (· ∉ fresh.reverse ++ seen) ++ fresh) := by
    apply (List.perm_ext_iff_of_nodup (distinct.filter _) ?_).mpr
    · intro node
      simp only [List.mem_filter, List.mem_append, List.mem_reverse, decide_eq_true_eq, not_or]
      constructor
      · rintro ⟨isNode, notSeen⟩
        by_cases inFresh : node ∈ fresh
        · exact Or.inr inFresh
        · exact Or.inl ⟨isNode, inFresh, notSeen⟩
      · rintro (⟨isNode, -, notSeen⟩ | inFresh)
        · exact ⟨isNode, notSeen⟩
        · exact ⟨listed inFresh, isFresh node inFresh⟩
    · apply List.Nodup.append (distinct.filter _) once
      intro node member inFresh
      simp only [List.mem_filter, List.mem_append, List.mem_reverse, decide_eq_true_eq,
        not_or] at member
      exact member.2.1 inFresh
  unfold unseen
  rw [parts.length_eq, List.length_append]

/-- With a step for each piece of work and each node that may still be marked, the loop ends
with no work left. -/
theorem discovered_of_frontier {nodes : List ι} (distinct : nodes.Nodup) (merges : Merges merge)
    (listed : ∀ node, successors node ⊆ nodes) (inside : seen₀ ⊆ roots) {visit : σ → ι → σ}
    (state : σ) {fuel : Nat} (enough : work.length + unseen nodes seen ≤ fuel)
    (frontier : Frontier successors roots seen₀ work seen taken) :
    ∃ final taken', discoverWith successors merge visit fuel work
      (seen, taken.reverse.foldl visit state) = some final ∧
        Discovered successors visit roots seen₀ state final taken' := by
  induction fuel generalizing work seen taken with
  | zero =>
      have empty : work = [] := List.length_eq_zero_iff.mp (by omega)
      subst empty
      exact ⟨_, taken, rfl, frontier.discovered inside⟩
  | succ fuel ih =>
      cases work with
      | nil => exact ⟨_, taken, rfl, frontier.discovered inside⟩
      | cons node work =>
          have fewer : (merge (freshOf seen (successors node)) work).length +
              unseen nodes ((freshOf seen (successors node)).reverse ++ seen) ≤ fuel := by
            have counted := unseen_append distinct
              (fun other member => listed node (mem_freshOf.mp member).1)
              (nodup_freshOf seen (successors node)) fun other member => (mem_freshOf.mp member).2
            rw [(merges _ _).length_eq, List.length_append]
            rw [List.length_cons] at enough
            omega
          have found := ih fewer (frontier.step merges inside)
          rw [List.reverse_cons, List.foldl_append] at found
          exact found

/-- On a finite graph the loop marks what the work leads to. -/
theorem discovered {nodes : List ι} (distinct : nodes.Nodup) (merges : Merges merge)
    (listed : ∀ node, successors node ⊆ nodes) (inside : seen₀ ⊆ roots) (visit : σ → ι → σ)
    (state : σ) {fuel : Nat} (enough : roots.length + nodes.length ≤ fuel) :
    ∃ final taken, discoverWith successors merge visit fuel roots (seen₀, state) = some final ∧
      Discovered successors visit roots seen₀ state final taken := by
  have bounded : unseen nodes seen₀ ≤ nodes.length := List.length_filter_le _ _
  exact discovered_of_frontier distinct merges listed inside state (by omega)
    (Frontier.start roots seen₀)

end Discovery

end Rayzor.Library
