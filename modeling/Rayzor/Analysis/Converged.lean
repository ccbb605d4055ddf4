import Rayzor.Analysis.Dominators

/-!
Contract: what the iterative dominator algorithm converges to.
-/

namespace Rayzor.Analysis

open Library.Graph

namespace Dominators

def climbUncut (idom : Table) (floor : Nat) : Nat → Nat → Option (Except Nat Nat)
  | 0, node => if floor < node then none else some (.ok node)
  | fuel + 1, node =>
      if floor < node then
        match idom.getD node none with
        | some dom => climbUncut idom floor fuel dom
        | none => some (.error node)
      else some (.ok node)

def intersectUncut (idom : Table) : Nat → Nat → Nat → Option Nat
  | 0, b1, b2 => if b1 = b2 then some b1 else none
  | steps + 1, b1, b2 =>
      if b1 = b2 then some b1
      else (climbUncut idom b2 idom.length b1).bind fun first => match first with
        | .error unknown => some unknown
        | .ok b1 => (climbUncut idom b1 idom.length b2).bind fun second => match second with
            | .error unknown => some unknown
            | .ok b2 => intersectUncut idom steps b1 b2

def meetUncut (idom : Table) (new : Option Nat) (pred : Nat) : Option (Option Nat) :=
  if (idom.getD pred none).isSome then
    match new with
    | none => some (some pred)
    | some dom => (intersectUncut idom (idom.length + 1) dom pred).map some
  else some new

def newIdomUncut (idom : Table) (predecessors : List Nat) : Option (Option Nat) :=
  predecessors.foldlM (meetUncut idom) none

def visitBlockUncut (predecessors : List (List Nat)) (state : Table × Bool) (block : Nat) :
    Option (Table × Bool) :=
  (newIdomUncut state.1 (predecessors.getD block [])).map fun new =>
    if new = state.1.getD block none then state else (state.1.set block new, true)

def sweepUncut (predecessors : List (List Nat)) (idom : Table) : Option (Table × Bool) :=
  (List.range' 1 (predecessors.length - 1)).foldlM (visitBlockUncut predecessors) (idom, false)

def iterateUncut (predecessors : List (List Nat)) : Nat → Table → Option Table
  | 0, _ => none
  | count + 1, idom => (sweepUncut predecessors idom).bind fun swept =>
      if swept.2 then iterateUncut predecessors count swept.1 else some swept.1

def solveUncut (predecessors : List (List Nat)) : Option Table :=
  iterateUncut predecessors (predecessors.length * 2 + 10) (initial predecessors.length)

variable {idom : Table}

theorem Ancestor.through (descending : Descending idom) {node first second : Nat}
    (toFirst : Ancestor idom node first) (toSecond : Ancestor idom node second)
    (below : second ≤ first) : Ancestor idom first second := by
  induction toFirst with
  | refl => exact toSecond
  | up inner immediate rest ih =>
      cases toSecond with
      | refl =>
          have less := (descending inner immediate).1
          have lower := rest.le descending
          omega
      | up _ immediate' rest' =>
          rw [immediate] at immediate'
          cases immediate'
          exact ih rest' below

theorem Ancestor.strict {node above : Nat} (ancestor : Ancestor idom node above) :
    node = above ∨ ∃ dom, idom.getD node none = some dom ∧ Ancestor idom dom above := by
  cases ancestor with
  | refl => exact Or.inl rfl
  | up _ immediate rest => exact Or.inr ⟨_, immediate, rest⟩

theorem climbUncut_spec (descending : Descending idom) {floor fuel node : Nat}
    (known : Known idom node) (enough : node ≤ fuel) :
    ∃ above, climbUncut idom floor fuel node = some (.ok above) ∧
      climb idom floor fuel node = .ok above ∧ Ancestor idom node above ∧ above ≤ floor ∧
      ∀ common ≤ floor, Ancestor idom node common → common ≤ above := by
  induction fuel generalizing node with
  | zero =>
      have low : ¬floor < node := by omega
      refine ⟨node, ?_, rfl, .refl node, by omega, fun common _ ancestor =>
        ancestor.le descending⟩
      unfold climbUncut
      rw [if_neg low]
  | succ fuel ih =>
      unfold climbUncut climb
      split_ifs with higher
      · obtain ⟨dom, immediate⟩ := Option.isSome_iff_exists.mp known
        have inner : node ≠ 0 := by omega
        obtain ⟨lower, domKnown⟩ := descending inner immediate
        obtain ⟨above, climbed, climbed', ancestor, below, highest⟩ :=
          ih domKnown (by omega)
        rw [immediate]
        refine ⟨above, climbed, climbed', .up inner immediate ancestor, below, ?_⟩
        intro common isLow toCommon
        cases toCommon with
        | refl => omega
        | up _ immediate' rest =>
            rw [immediate] at immediate'
            cases immediate'
            exact highest common isLow rest
      · exact ⟨node, rfl, rfl, .refl node, by omega, fun common _ ancestor =>
          ancestor.le descending⟩

theorem intersectUncut_spec (descending : Descending idom) {steps b1 b2 : Nat}
    (known1 : Known idom b1) (known2 : Known idom b2) (enough : max b1 b2 ≤ steps) :
    ∃ met, intersectUncut idom steps b1 b2 = some met ∧ intersectWithin idom steps b1 b2 = met ∧
      Ancestor idom b1 met ∧ Ancestor idom b2 met ∧
      ∀ common, Ancestor idom b1 common → Ancestor idom b2 common → common ≤ met := by
  induction steps generalizing b1 b2 with
  | zero =>
      obtain rfl : b1 = b2 := by omega
      refine ⟨b1, ?_, rfl, .refl b1, .refl b1, fun common ancestor _ => ancestor.le descending⟩
      unfold intersectUncut
      rw [if_pos rfl]
  | succ steps ih =>
      unfold intersectUncut intersectWithin
      split_ifs with same
      · subst same
        exact ⟨b1, rfl, rfl, .refl b1, .refl b1, fun common ancestor _ => ancestor.le descending⟩
      · obtain ⟨above1, climbed1, climbed1', ancestor1, below1, highest1⟩ :=
          climbUncut_spec descending known1 (lt_length_of_known known1).le
        obtain ⟨above2, climbed2, climbed2', ancestor2, below2, highest2⟩ :=
          climbUncut_spec descending known2 (lt_length_of_known known2).le
        rw [climbed1, climbed1', Option.bind_some]
        simp only
        rw [climbed2, climbed2', Option.bind_some]
        simp only
        have lower1 := ancestor1.le descending
        have lower2 := ancestor2.le descending
        obtain ⟨met, isMet, isMet', from1, from2, highest⟩ := ih
          (ancestor1.known descending known1) (ancestor2.known descending known2) (by omega)
        refine ⟨met, isMet, isMet', ancestor1.trans from1, ancestor2.trans from2, ?_⟩
        intro common toCommon1 toCommon2
        have isLow2 := toCommon2.le descending
        have isLow1 := highest1 common isLow2 toCommon1
        have isLow := highest2 common isLow1 toCommon2
        exact highest common (ancestor1.through descending toCommon1 isLow1)
          (ancestor2.through descending toCommon2 isLow)

/-- What `newIdom` finds is the nearest common ancestor of the predecessors with a dominator. -/
structure Nearest (idom : Table) (predecessors : List Nat) (new : Option Nat) : Prop where
  above : ∀ dom, new = some dom → ∃ pred ∈ predecessors, Known idom pred ∧ Ancestor idom pred dom
  least : ∀ dom, new = some dom → ∀ common,
    (∀ pred ∈ predecessors, Known idom pred → Ancestor idom pred common) →
      Ancestor idom dom common
  known : ∀ dom, new = some dom → Known idom dom

theorem newIdomUncut_spec (descending : Descending idom) (predecessors : List Nat) :
    newIdomUncut idom predecessors = some (newIdom idom predecessors) ∧
      Nearest idom predecessors (newIdom idom predecessors) := by
  have along : ∀ (done rest : List Nat) (new : Option Nat), Nearest idom done new →
      rest.foldlM (meetUncut idom) new = some (rest.foldl (meet idom) new) ∧
        Nearest idom (done ++ rest) (rest.foldl (meet idom) new) := by
    intro done rest
    induction rest generalizing done with
    | nil =>
        intro new nearest
        exact ⟨rfl, (List.append_nil done).symm ▸ nearest⟩
    | cons pred rest ih =>
        intro new nearest
        have step : meetUncut idom new pred = some (meet idom new pred) ∧
            Nearest idom (done ++ [pred]) (meet idom new pred) := by
          have isLast : pred ∈ done ++ [pred] :=
            List.mem_append_right _ (List.mem_singleton_self pred)
          unfold meetUncut meet
          split_ifs with predKnown
          · cases new with
            | none =>
                refine ⟨rfl, ?_, ?_, ?_⟩
                · rintro dom ⟨⟩
                  exact ⟨pred, isLast, predKnown, .refl pred⟩
                · rintro dom ⟨⟩ common toCommon
                  exact toCommon pred isLast predKnown
                · rintro dom ⟨⟩
                  exact predKnown
            | some old =>
                have oldKnown := nearest.known old rfl
                have inside := lt_length_of_known oldKnown
                have inside' := lt_length_of_known predKnown
                obtain ⟨met, isMet, isMet', fromOld, fromPred, highest⟩ := intersectUncut_spec
                  descending oldKnown predKnown (show max old pred ≤ idom.length + 1 by omega)
                have isNew : intersect old pred idom = met := isMet'
                simp only [isMet, Option.map_some, Option.elim_some, isNew]
                refine ⟨trivial, ?_, ?_, ?_⟩
                · rintro dom ⟨⟩
                  exact ⟨pred, isLast, predKnown, fromPred⟩
                · rintro dom ⟨⟩ common toCommon
                  have ofOld := nearest.least old rfl common
                    fun other member => toCommon other (List.mem_append_left _ member)
                  have ofPred := toCommon pred isLast predKnown
                  exact fromPred.through descending ofPred (highest common ofOld ofPred)
                · rintro dom ⟨⟩
                  exact fromPred.known descending predKnown
          · refine ⟨rfl, ?_, ?_, nearest.known⟩
            · intro dom isNew
              obtain ⟨other, member, known, ancestor⟩ := nearest.above dom isNew
              exact ⟨other, List.mem_append_left _ member, known, ancestor⟩
            · intro dom isNew common toCommon
              exact nearest.least dom isNew common
                fun other member => toCommon other (List.mem_append_left _ member)
        obtain ⟨folded, nearest'⟩ := ih (done ++ [pred]) _ step.2
        rw [List.append_assoc, List.singleton_append] at nearest'
        refine ⟨?_, nearest'⟩
        rw [List.foldlM_cons, step.1]
        exact folded
  exact along [] predecessors none ⟨nofun, nofun, nofun⟩

section Converging

variable {predecessors : List (List Nat)} {count block : Nat}

/-- Every immediate dominator leads to its node along nodes that are no earlier than it, and the
dominators of a node are among its ancestors. -/
structure Complete (predecessors : List (List Nat)) (idom : Table) : Prop where
  root : idom.getD 0 none = some 0
  linked : ∀ {node dom}, node ≠ 0 → idom.getD node none = some dom →
    ∃ path, EntryPath (DenseEdge predecessors) dom path node ∧ ∀ other ∈ path, dom ≤ other
  dominators : ∀ {node dom}, Known idom node →
    Dominates (DenseEdge predecessors) 0 dom node → Ancestor idom node dom

theorem Complete.path (complete : Complete predecessors idom) (descending : Descending idom)
    {node above : Nat} (ancestor : Ancestor idom node above) :
    ∃ path, EntryPath (DenseEdge predecessors) above path node ∧
      ∀ other ∈ path, above ≤ other := by
  induction ancestor with
  | refl node => exact ⟨[node], .start, fun other member => (List.mem_singleton.mp member).ge⟩
  | up inner immediate rest ih =>
      obtain ⟨front, walk, high⟩ := ih
      obtain ⟨back, walk', high'⟩ := complete.linked inner immediate
      have lower := rest.le descending
      obtain ⟨earlier, rfl, joined⟩ := walk.append walk'
      refine ⟨back ++ earlier, joined, fun other member => ?_⟩
      rcases List.mem_append.mp member with inBack | inEarlier
      · exact lower.trans (high' other inBack)
      · exact high other (List.mem_cons_of_mem _ inEarlier)

theorem Complete.dominates_ancestor (complete : Complete predecessors idom)
    (descending : Descending idom) {node above dom : Nat} (ancestor : Ancestor idom node above)
    (dominates : Dominates (DenseEdge predecessors) 0 dom node) (earlier : dom < above) :
    Dominates (DenseEdge predecessors) 0 dom above := by
  intro path walk
  obtain ⟨back, walk', high⟩ := complete.path descending ancestor
  obtain ⟨rest, rfl, joined⟩ := walk.append walk'
  rcases List.mem_append.mp (dominates _ joined) with inBack | inRest
  · exact absurd (high dom inBack) (not_le.mpr earlier)
  · exact List.mem_cons_of_mem _ inRest

/-- An update of a later node leaves the ancestors of the earlier ones. -/
theorem Ancestor.set (descending : Descending idom) (inside : block < idom.length) {node above : Nat}
    (ancestor : Ancestor idom node above) (before : node < block) (new : Option Nat) :
    Ancestor (idom.set block new) node above := by
  induction ancestor with
  | refl => exact .refl _
  | @up node dom above inner immediate rest ih =>
      have less := (descending inner immediate).1
      refine .up inner ?_ (ih (less.trans before))
      rw [getD_set inside, if_neg (Nat.ne_of_lt before)]
      exact immediate

/-- One block brought up to date. -/
theorem Complete.visit (ordered : Ordered predecessors)
    (sound : Sound predecessors idom count block) (complete : Complete predecessors idom)
    (inside : block < predecessors.length) (inner : block ≠ 0) (changed : Bool) :
    Complete predecessors (visitBlock predecessors (idom, changed) block).1 := by
  have within : block < idom.length := sound.length ▸ inside
  rw [visitBlock_fst within]
  have descending : Descending idom := sound.descending
  obtain ⟨-, nearest⟩ := newIdomUncut_spec descending (predecessors.getD block [])
  have meets := newIdom_meets descending (predecessors.getD block [])
  obtain ⟨first, before, along⟩ := ordered.earlier block inside inner
  have firstKnown := sound.known first (ordered.inside along) (Or.inl before)
  obtain ⟨dom, isNew, ofFirst⟩ := meets.above first along firstKnown
  rw [isNew]
  have lower : dom < block := Nat.lt_of_le_of_lt (ofFirst.le descending) before
  have isDom : (idom.set block (some dom)).getD block none = some dom := by
    rw [getD_set within, if_pos rfl]
  -- A strict dominator of the block dominates every predecessor, so it is above the new one.
  have atBlock : ∀ {above}, Dominates (DenseEdge predecessors) 0 above block →
      Ancestor (idom.set block (some dom)) block above := by
    intro above dominates
    by_cases same : above = block
    · exact same ▸ .refl _
    · have ofDom := nearest.least dom isNew above fun pred isPred predKnown =>
        complete.dominators predKnown (dominates.of_edge isPred same)
      exact .up inner isDom (ofDom.set descending within lower _)
  refine ⟨?_, ?_, ?_⟩
  · rw [getD_set within, if_neg (Ne.symm inner)]
    exact complete.root
  · intro node above nodeInner immediate
    rw [getD_set within] at immediate
    split_ifs at immediate with isBlock
    · cases immediate
      subst isBlock
      obtain ⟨pred, isPred, -, ancestor⟩ := nearest.above _ isNew
      obtain ⟨path, walk, high⟩ := complete.path descending ancestor
      refine ⟨node :: path, .step walk isPred, fun other member => ?_⟩
      rcases List.mem_cons.mp member with rfl | inPath
      · exact lower.le
      · exact high other inPath
    · exact complete.linked nodeInner immediate
  · intro node above known dominates
    by_cases isBlock : node = block
    · exact isBlock ▸ atBlock (isBlock ▸ dominates)
    · have knownBefore : Known idom node := by
        unfold Known at known ⊢
        rwa [getD_set within, if_neg isBlock] at known
      have ancestor := complete.dominators knownBefore dominates
      -- Along the old chain, what lies above the block is found again from the block.
      have rebuilt : ∀ {lower upper}, Ancestor idom lower upper → Ancestor idom node lower →
          upper = above → Ancestor (idom.set block (some dom)) lower upper := by
        intro lower upper chain
        induction chain with
        | refl => exact fun _ _ => .refl _
        | @up lower next upper lowerInner immediate rest ih =>
            intro fromNode isAbove
            by_cases atB : lower = block
            · subst atB
              subst isAbove
              have earlier := Nat.lt_of_le_of_lt (rest.le descending)
                (descending lowerInner immediate).1
              exact atBlock (complete.dominates_ancestor descending fromNode dominates earlier)
            · refine .up lowerInner ?_ (ih
                (fromNode.trans (.up lowerInner immediate (.refl _))) isAbove)
              rw [getD_set within, if_neg atB]
              exact immediate
      exact rebuilt ancestor (.refl node) rfl

theorem Sound.dominates (ordered : Ordered predecessors)
    (sound : Sound predecessors idom count block) (enough : predecessors.length ≤ count)
    {node above : Nat} (ancestor : Ancestor idom node above) :
    Dominates (DenseEdge predecessors) 0 above node := by
  intro path walk
  obtain ⟨shorter, walk', within, distinct⟩ := walk.simple
  have inRange : shorter ⊆ List.range predecessors.length := by
    intro other member
    obtain ⟨_, walk'', -⟩ := walk'.upTo member
    exact List.mem_range.mpr (lt_length_of_walk ordered walk'')
  have short : shorter.length ≤ predecessors.length := by
    simpa using (distinct.subperm inRange).length_le
  have few := retreats_lt_length (List.ne_nil_of_mem walk'.last_mem)
  apply within
  apply sound.above ancestor walk'
  split_ifs <;> omega

theorem visitBlockUncut_eq (descending : Descending idom) (changed : Bool) (block : Nat) :
    visitBlockUncut predecessors (idom, changed) block =
      some (visitBlock predecessors (idom, changed) block) := by
  unfold visitBlockUncut visitBlock
  rw [(newIdomUncut_spec descending (predecessors.getD block [])).1, Option.map_some]

theorem visitBlock_fixed (ordered : Ordered predecessors)
    (sound : Sound predecessors idom count block) (complete : Complete predecessors idom)
    (enough : predecessors.length ≤ count) (inside : block < predecessors.length)
    (inner : block ≠ 0) (changed : Bool) :
    visitBlock predecessors (idom, changed) block = (idom, changed) := by
  have descending : Descending idom := sound.descending
  have within : block < idom.length := sound.length ▸ inside
  have positive : 0 < count := Nat.lt_of_lt_of_le ordered.nonempty enough
  have blockKnown := sound.known block inside (Or.inr positive)
  obtain ⟨old, isOld⟩ := Option.isSome_iff_exists.mp blockKnown
  have oldLower := (descending inner isOld).1
  obtain ⟨-, nearest⟩ := newIdomUncut_spec descending (predecessors.getD block [])
  have meets := newIdom_meets descending (predecessors.getD block [])
  obtain ⟨first, before, along⟩ := ordered.earlier block inside inner
  obtain ⟨dom, isNew, ofFirst⟩ :=
    meets.above first along (sound.known first (ordered.inside along) (Or.inr positive))
  have lower : dom < block := Nat.lt_of_le_of_lt (ofFirst.le descending) before
  have oldDominates := sound.dominates ordered enough (.up inner isOld (.refl old))
  have oldAbove : Ancestor idom dom old := nearest.least dom isNew old
    fun pred isPred predKnown =>
      complete.dominators predKnown (oldDominates.of_edge isPred (Nat.ne_of_lt oldLower))
  have visited := sound.visit ordered inside inner changed
  rw [visitBlock_fst within, isNew] at visited
  have isDom : (idom.set block (some dom)).getD block none = some dom := by
    rw [getD_set within, if_pos rfl]
  have newDominates := visited.dominates ordered enough (.up inner isDom (.refl dom))
  have newAbove : Ancestor idom old dom := by
    cases complete.dominators blockKnown newDominates with
    | refl => exact absurd lower (lt_irrefl _)
    | up _ immediate rest =>
        rw [isOld] at immediate
        cases immediate
        exact rest
  have same : dom = old := Nat.le_antisymm (newAbove.le descending) (oldAbove.le descending)
  unfold visitBlock
  simp only
  rw [isNew, same, isOld, if_pos rfl]

/-- The blocks of a sweep: nothing is cut, and nothing changes once the sweeps are enough. -/
theorem visitAllUncut (ordered : Ordered predecessors) (more : Nat) : ∀ {idom block},
    Sound predecessors idom count block → Complete predecessors idom → block ≠ 0 →
      block + more ≤ predecessors.length → ∀ changed,
      (List.range' block more).foldlM (visitBlockUncut predecessors) (idom, changed) =
          some ((List.range' block more).foldl (visitBlock predecessors) (idom, changed)) ∧
        Complete predecessors
          ((List.range' block more).foldl (visitBlock predecessors) (idom, changed)).1 ∧
        (predecessors.length ≤ count →
          (List.range' block more).foldl (visitBlock predecessors) (idom, changed) =
            (idom, changed)) := by
  induction more with
  | zero => exact fun _ complete _ _ _ => ⟨rfl, complete, fun _ => rfl⟩
  | succ more ih =>
      intro idom block sound complete inner inside changed
      have sound' := sound.visit ordered (by omega) inner changed
      have complete' := complete.visit ordered sound (by omega) inner changed
      obtain ⟨folded, completed, fixed⟩ := ih sound' complete'
        (Nat.succ_ne_zero block) (by omega) (visitBlock predecessors (idom, changed) block).2
      rw [List.range'_succ, List.foldlM_cons, List.foldl_cons,
        visitBlockUncut_eq sound.descending]
      refine ⟨folded, completed, fun enough => ?_⟩
      have unchanged := visitBlock_fixed ordered sound complete enough (by omega) inner changed
      rw [unchanged] at fixed ⊢
      exact fixed enough

theorem sweepUncut_spec (ordered : Ordered predecessors) (sound : Sound predecessors idom count 1)
    (complete : Complete predecessors idom) :
    sweepUncut predecessors idom = some (sweep predecessors idom) ∧
      Complete predecessors (sweep predecessors idom).1 ∧
      (predecessors.length ≤ count → sweep predecessors idom = (idom, false)) := by
  have nonempty := ordered.nonempty
  exact visitAllUncut ordered (predecessors.length - 1) sound complete Nat.one_ne_zero
    (by omega) false

theorem iterateUncut_spec (ordered : Ordered predecessors) (allowed : Nat) : ∀ {idom count},
    Sound predecessors idom count 1 → Complete predecessors idom →
      count ≤ predecessors.length → predecessors.length < count + allowed →
      iterateUncut predecessors allowed idom = some (iterate predecessors allowed idom) ∧
        Complete predecessors (iterate predecessors allowed idom) := by
  induction allowed with
  | zero => exact fun _ _ few many => absurd many (not_lt.mpr few)
  | succ allowed ih =>
      intro idom count sound complete few many
      obtain ⟨swept, completed, fixed⟩ := sweepUncut_spec ordered sound complete
      unfold iterateUncut iterate
      rw [swept, Option.bind_some]
      simp only
      split_ifs with changed
      · have fewer : count < predecessors.length := by
          by_contra enough
          rw [fixed (not_lt.mp enough)] at changed
          cases changed
        exact ih (sound.sweep ordered) completed fewer (by omega)
      · exact ⟨rfl, completed⟩

theorem complete_initial (ordered : Ordered predecessors) :
    Complete predecessors (initial predecessors.length) := by
  have isRoot : (initial predecessors.length).getD 0 none = some 0 := by
    rw [initial_getD, if_pos ⟨rfl, ordered.nonempty⟩]
  refine ⟨isRoot, ?_, ?_⟩
  · intro node dom inner immediate
    rw [initial_getD, if_neg fun root => inner root.1] at immediate
    cases immediate
  · intro node dom known dominates
    have isZero : node = 0 := by
      by_contra inner
      rw [Known, initial_getD, if_neg fun root => inner root.1] at known
      cases known
    subst isZero
    have member := dominates _ .start
    rw [List.mem_singleton] at member
    exact member ▸ .refl _

/-- No cap cuts the computation short. -/
theorem solveUncut_eq (ordered : Ordered predecessors) :
    solveUncut predecessors = some (solve predecessors) ∧
      Complete predecessors (solve predecessors) := by
  apply iterateUncut_spec ordered _ (sound_initial ordered) (complete_initial ordered)
  · exact Nat.zero_le _
  · omega

theorem ancestor_iff_dominates (ordered : Ordered predecessors) {node dom : Nat}
    (inside : node < predecessors.length) :
    Ancestor (solve predecessors) node dom ↔ Dominates (DenseEdge predecessors) 0 dom node := by
  constructor
  · exact solve_dominates ordered
  · obtain ⟨reached, enough, sound⟩ := solve_sound ordered
    have positive : 0 < reached := Nat.lt_of_lt_of_le ordered.nonempty enough
    exact (solveUncut_eq ordered).2.dominators (sound.known node inside (Or.inr positive))

end Converging

end Dominators

end Rayzor.Analysis
