import Rayzor.Library.Graph

/-!
Contract: the iterative dominator algorithm on dense reverse-postorder indices.

Owns: the two-finger intersection, one sweep over the blocks, the bounded
iteration of sweeps, and that every ancestor the final table gives a node
dominates it, whether the iteration stopped by itself or at its bound.

Does not own: how the indices were found, and that the table names the closest
dominator.
-/

namespace Rayzor.Analysis

open Library.Graph

namespace Dominators

abbrev Table := List (Option Nat)

/-- Follow immediate dominators down to `floor`; an unknown one ends it all. -/
def climb (idom : Table) (floor : Nat) : Nat → Nat → Except Nat Nat
  | 0, node => .ok node
  | fuel + 1, node =>
      if floor < node then
        match idom.getD node none with
        | some dom => climb idom floor fuel dom
        | none => .error node
      else .ok node

def intersectWithin (idom : Table) : Nat → Nat → Nat → Nat
  | 0, b1, _ => b1
  | steps + 1, b1, b2 =>
      if b1 = b2 then b1
      else match climb idom b2 idom.length b1 with
        | .error unknown => unknown
        | .ok b1 =>
            match climb idom b1 idom.length b2 with
            | .error unknown => unknown
            | .ok b2 => intersectWithin idom steps b1 b2

def intersect (b1 b2 : Nat) (idom : Table) : Nat := intersectWithin idom (idom.length + 1) b1 b2

/-- Take one more predecessor into account, if it has a dominator yet. -/
def meet (idom : Table) (new : Option Nat) (pred : Nat) : Option Nat :=
  if (idom.getD pred none).isSome then
    some (new.elim pred fun dom => intersect dom pred idom)
  else new

def newIdom (idom : Table) (predecessors : List Nat) : Option Nat :=
  predecessors.foldl (meet idom) none

def visitBlock (predecessors : List (List Nat)) (state : Table × Bool) (block : Nat) :
    Table × Bool :=
  let new := newIdom state.1 (predecessors.getD block [])
  if new = state.1.getD block none then state else (state.1.set block new, true)

/-- One pass over all blocks but the entry, and whether it changed anything. -/
def sweep (predecessors : List (List Nat)) (idom : Table) : Table × Bool :=
  (List.range' 1 (predecessors.length - 1)).foldl (visitBlock predecessors) (idom, false)

def iterate (predecessors : List (List Nat)) : Nat → Table → Table
  | 0, idom => idom
  | count + 1, idom =>
      let swept := sweep predecessors idom
      if swept.2 then iterate predecessors count swept.1 else swept.1

def initial (count : Nat) : Table := (List.replicate count none).set 0 (some 0)

def solve (predecessors : List (List Nat)) : Table :=
  iterate predecessors (predecessors.length * 2 + 10) (initial predecessors.length)

/-- `above` is `node` or is reached from it along immediate dominators. -/
inductive Ancestor (idom : Table) : Nat → Nat → Prop where
  | refl (node : Nat) : Ancestor idom node node
  | up {node dom above : Nat} (inner : node ≠ 0) (immediate : idom.getD node none = some dom)
      (rest : Ancestor idom dom above) : Ancestor idom node above

def Known (idom : Table) (node : Nat) : Prop := (idom.getD node none).isSome

/-- Immediate dominators come earlier and have one themselves. -/
def Descending (idom : Table) : Prop :=
  ∀ {node dom}, node ≠ 0 → idom.getD node none = some dom → dom < node ∧ Known idom dom

variable {idom : Table}

theorem Ancestor.trans {node middle above : Nat} (first : Ancestor idom node middle)
    (second : Ancestor idom middle above) : Ancestor idom node above := by
  induction first with
  | refl => exact second
  | up inner immediate _ ih =>
      exact .up inner immediate (ih second)

theorem Ancestor.le (descending : Descending idom) {node above : Nat}
    (ancestor : Ancestor idom node above) : above ≤ node := by
  induction ancestor with
  | refl => exact Nat.le_refl _
  | up inner immediate _ ih =>
      have lower := (descending inner immediate).1
      omega

theorem Ancestor.known (descending : Descending idom) {node above : Nat}
    (ancestor : Ancestor idom node above) (known : Known idom node) : Known idom above := by
  induction ancestor with
  | refl => exact known
  | up inner immediate _ ih =>
      exact ih (descending inner immediate).2

theorem Ancestor.of_root {above : Nat} (ancestor : Ancestor idom 0 above) : above = 0 := by
  cases ancestor with
  | refl => rfl
  | up inner _ _ => exact absurd rfl inner

theorem lt_length_of_known {node : Nat} (known : Known idom node) : node < idom.length := by
  by_contra outside
  rw [Known, List.getD_eq_default _ _ (Nat.le_of_not_lt outside)] at known
  cases known

theorem climb_spec (descending : Descending idom) {floor fuel node : Nat}
    (known : Known idom node) (enough : node ≤ fuel) :
    ∃ above, climb idom floor fuel node = .ok above ∧ Ancestor idom node above ∧
      above ≤ floor := by
  induction fuel generalizing node with
  | zero => exact ⟨node, rfl, .refl node, by omega⟩
  | succ fuel ih =>
      unfold climb
      split_ifs with higher
      · obtain ⟨dom, immediate⟩ := Option.isSome_iff_exists.mp known
        have inner : node ≠ 0 := by omega
        obtain ⟨lower, domKnown⟩ := descending inner immediate
        obtain ⟨above, climbed, ancestor, below⟩ := ih domKnown (by omega)
        rw [immediate]
        exact ⟨above, climbed, .up inner immediate ancestor, below⟩
      · exact ⟨node, rfl, .refl node, by omega⟩

theorem intersectWithin_spec (descending : Descending idom) {steps b1 b2 : Nat}
    (known1 : Known idom b1) (known2 : Known idom b2) (enough : max b1 b2 < steps) :
    Ancestor idom b1 (intersectWithin idom steps b1 b2) ∧
      Ancestor idom b2 (intersectWithin idom steps b1 b2) := by
  induction steps generalizing b1 b2 with
  | zero => exact absurd enough (Nat.not_lt_zero _)
  | succ steps ih =>
      unfold intersectWithin
      split_ifs with same
      · subst same
        exact ⟨.refl b1, .refl b1⟩
      · obtain ⟨above1, climbed1, ancestor1, below1⟩ := climb_spec descending
          known1 (lt_length_of_known known1).le
        obtain ⟨above2, climbed2, ancestor2, below2⟩ := climb_spec descending
          known2 (lt_length_of_known known2).le
        rw [climbed1]
        simp only
        rw [climbed2]
        have lower1 := ancestor1.le descending
        have progress : max above1 above2 < steps := by omega
        obtain ⟨from1, from2⟩ := ih (ancestor1.known descending known1)
          (ancestor2.known descending known2) progress
        exact ⟨ancestor1.trans from1, ancestor2.trans from2⟩

theorem intersect_spec (descending : Descending idom) {b1 b2 : Nat} (known1 : Known idom b1)
    (known2 : Known idom b2) :
    Ancestor idom b1 (intersect b1 b2 idom) ∧ Ancestor idom b2 (intersect b1 b2 idom) := by
  have inside1 := lt_length_of_known known1
  have inside2 := lt_length_of_known known2
  exact intersectWithin_spec descending known1 known2 (by omega)

/-- What `newIdom` has found after some of the predecessors. -/
structure Meets (idom : Table) (predecessors : List Nat) (new : Option Nat) : Prop where
  above : ∀ pred ∈ predecessors, Known idom pred → ∃ dom, new = some dom ∧ Ancestor idom pred dom
  known : ∀ dom, new = some dom → Known idom dom

theorem newIdom_meets (descending : Descending idom) (predecessors : List Nat) :
    Meets idom predecessors (newIdom idom predecessors) := by
  have extended : ∀ (done rest : List Nat) (new : Option Nat), Meets idom done new →
      Meets idom (done ++ rest) (rest.foldl (meet idom) new) := by
    intro done rest
    induction rest generalizing done with
    | nil =>
        intro new meets
        rwa [List.append_nil]
    | cons pred rest ih =>
        intro new meets
        rw [List.foldl_cons, ← List.singleton_append, ← List.append_assoc]
        refine ih (done ++ [pred]) _ ?_
        unfold meet
        split_ifs with predKnown
        · cases new with
          | none =>
              constructor
              · intro other member otherKnown
                rcases List.mem_append.mp member with early | last
                · obtain ⟨_, impossible, _⟩ := meets.above other early otherKnown
                  cases impossible
                · rw [List.mem_singleton.mp last]
                  exact ⟨pred, rfl, .refl pred⟩
              · rintro dom ⟨⟩
                exact predKnown
          | some old =>
              obtain ⟨ofOld, ofPred⟩ :=
                intersect_spec descending (meets.known old rfl) predKnown
              constructor
              · intro other member otherKnown
                refine ⟨_, rfl, ?_⟩
                rcases List.mem_append.mp member with early | last
                · obtain ⟨_, same, ancestor⟩ := meets.above other early otherKnown
                  cases same
                  exact ancestor.trans ofOld
                · rw [List.mem_singleton.mp last]
                  exact ofPred
              · rintro dom ⟨⟩
                exact ofPred.known descending predKnown
        · refine ⟨?_, meets.known⟩
          intro other member otherKnown
          rcases List.mem_append.mp member with early | last
          · exact meets.above other early otherKnown
          · rw [List.mem_singleton.mp last] at otherKnown
            exact absurd otherKnown predKnown
  exact extended [] predecessors none ⟨by simp, by simp⟩

def DenseEdge (predecessors : List (List Nat)) (a b : Nat) : Prop :=
  a ∈ predecessors.getD b []

/-- How many edges of a path, newest node first, do not go to a later node. -/
def retreats : List Nat → Nat
  | b :: a :: earlier => (if b ≤ a then 1 else 0) + retreats (a :: earlier)
  | _ => 0

theorem retreats_le_of_suffix {front path : List Nat} (within : front <:+ path) :
    retreats front ≤ retreats path := by
  induction path with
  | nil => rw [List.suffix_nil.mp within]
  | cons node earlier ih =>
      rcases List.suffix_cons_iff.mp within with rfl | inner
      · exact Nat.le_refl _
      · have shorter := ih inner
        cases earlier with
        | nil => exact shorter.trans (Nat.zero_le _)
        | cons _ _ => exact shorter.trans (Nat.le_add_left _ _)

theorem retreats_lt_length {path : List Nat} (nonempty : path ≠ []) :
    retreats path < path.length := by
  induction path with
  | nil => exact absurd rfl nonempty
  | cons node earlier ih =>
      cases earlier with
      | nil => simp [retreats]
      | cons next rest =>
          have shorter := ih (List.cons_ne_nil _ _)
          simp only [retreats, List.length_cons] at shorter ⊢
          split_ifs <;> omega

/-- After `count` sweeps, and with the blocks below `block` done in the next
one, ancestors lie on every path with few enough retreating edges. -/
structure Sound (predecessors : List (List Nat)) (idom : Table) (count block : Nat) : Prop where
  length : idom.length = predecessors.length
  descending : Descending idom
  known : ∀ node < predecessors.length, node < block ∨ 0 < count → Known idom node
  above : ∀ {node above path}, Ancestor idom node above →
    EntryPath (DenseEdge predecessors) 0 path node →
    retreats path < (if node < block then count + 1 else count) → above ∈ path

/-- What reverse postorder gives: no predecessor outside, and an earlier one
for every block but the entry. -/
structure Ordered (predecessors : List (List Nat)) : Prop where
  nonempty : 0 < predecessors.length
  inside : ∀ {a b}, DenseEdge predecessors a b → a < predecessors.length
  earlier : ∀ b < predecessors.length, b ≠ 0 → ∃ a < b, DenseEdge predecessors a b

section Sweeps

variable {predecessors : List (List Nat)} {count block : Nat}

theorem lt_length_of_edge {a b : Nat} (along : DenseEdge predecessors a b) :
    b < predecessors.length := by
  by_contra outside
  rw [DenseEdge, List.getD_eq_default _ _ (Nat.le_of_not_lt outside)] at along
  cases along

theorem lt_length_of_walk (ordered : Ordered predecessors) {path : List Nat} {node : Nat}
    (walk : EntryPath (DenseEdge predecessors) 0 path node) : node < predecessors.length := by
  cases walk with
  | start => exact ordered.nonempty
  | step _ along => exact lt_length_of_edge along

theorem getD_set (inside : block < idom.length) (new : Option Nat) (node : Nat) :
    (idom.set block new).getD node none = if node = block then new else idom.getD node none := by
  simp only [List.getD_eq_getElem?_getD, List.getElem?_set, inside, if_true]
  by_cases same : block = node
  · simp [same]
  · simp [same, Ne.symm same]

theorem visitBlock_fst (inside : block < idom.length) (changed : Bool) :
    (visitBlock predecessors (idom, changed) block).1 =
      idom.set block (newIdom idom (predecessors.getD block [])) := by
  unfold visitBlock
  simp only
  split_ifs with same
  · rw [same, List.getD_eq_getElem _ _ inside, List.set_getElem_self]
  · rfl

theorem Ancestor.of_set (descending : Descending idom) (inside : block < idom.length)
    {dom node above : Nat} (lower : dom < block)
    (ancestor : Ancestor (idom.set block (some dom)) node above) :
    Ancestor idom node above ∨ Ancestor idom node block ∧ Ancestor idom dom above := by
  induction ancestor with
  | refl => exact Or.inl (.refl _)
  | @up node next above inner immediate _ ih =>
      rw [getD_set inside] at immediate
      split_ifs at immediate with isBlock
      · cases immediate
        rcases ih with kept | ⟨back, -⟩
        · rw [isBlock]
          exact Or.inr ⟨.refl block, kept⟩
        · exact absurd (back.le descending) (Nat.not_le_of_lt lower)
      · rcases ih with kept | ⟨through, rest⟩
        · exact Or.inl (.up inner immediate kept)
        · exact Or.inr ⟨.up inner immediate through, rest⟩

/-- One block brought up to date. The edge a path takes into the block decides
which bound its start is known for: a retreating edge uses up one sweep. -/
theorem Sound.visit (ordered : Ordered predecessors) (sound : Sound predecessors idom count block)
    (inside : block < predecessors.length) (inner : block ≠ 0) (changed : Bool) :
    Sound predecessors (visitBlock predecessors (idom, changed) block).1 count (block + 1) := by
  have within : block < idom.length := sound.length ▸ inside
  rw [visitBlock_fst within]
  have meets := newIdom_meets sound.descending (predecessors.getD block [])
  obtain ⟨first, before, along⟩ := ordered.earlier block inside inner
  have firstKnown := sound.known first (ordered.inside along) (Or.inl before)
  obtain ⟨dom, isNew, ofFirst⟩ := meets.above first along firstKnown
  rw [isNew]
  have lower : dom < block := Nat.lt_of_le_of_lt (ofFirst.le sound.descending) before
  have known : ∀ node, Known idom node → Known (idom.set block (some dom)) node := by
    intro node known
    unfold Known
    rw [getD_set within]
    split_ifs
    · rfl
    · exact known
  have atBlock : ∀ {above path}, Ancestor idom dom above →
      EntryPath (DenseEdge predecessors) 0 path block → retreats path < count + 1 →
      above ∈ path := by
    intro above path ancestor walk few
    cases walk with
    | start => exact absurd rfl inner
    | @step path a _ earlier along =>
        obtain ⟨rest, rfl⟩ := earlier.head
        simp only [retreats] at few
        have bounded : retreats (a :: rest) < (if a < block then count + 1 else count) := by
          split_ifs at few ⊢ <;> omega
        have aKnown : Known idom a := by
          refine sound.known a (ordered.inside along) ?_
          by_cases a < block
          · exact Or.inl ‹_›
          · rw [if_neg ‹_›] at bounded
            exact Or.inr (by omega)
        obtain ⟨_, same, ofA⟩ := meets.above a along aKnown
        rw [isNew] at same
        cases same
        exact List.mem_cons_of_mem _ (sound.above (ofA.trans ancestor) earlier bounded)
  constructor
  · rw [List.length_set, sound.length]
  · intro node next nodeInner immediate
    rw [getD_set within] at immediate
    split_ifs at immediate with isBlock
    · cases immediate
      exact ⟨isBlock ▸ lower, known dom (meets.known dom isNew)⟩
    · obtain ⟨less, nextKnown⟩ := sound.descending nodeInner immediate
      exact ⟨less, known next nextKnown⟩
  · intro node nodeInside early
    by_cases isBlock : node = block
    · unfold Known
      rw [getD_set within, if_pos isBlock]
      rfl
    · exact known node (sound.known node nodeInside (early.imp_left fun _ => by omega))
  · intro node above path ancestor walk few
    by_cases isBlock : node = block
    · subst isBlock
      rw [if_pos (Nat.lt_succ_self node)] at few
      cases ancestor with
      | refl => exact walk.last_mem
      | up _ immediate rest =>
          rw [getD_set within, if_pos rfl] at immediate
          cases immediate
          rcases rest.of_set sound.descending within lower with kept | ⟨back, -⟩
          · exact atBlock kept walk few
          · exact absurd (back.le sound.descending) (Nat.not_le_of_lt lower)
    · have same : (if node < block + 1 then count + 1 else count) =
          (if node < block then count + 1 else count) := by
        split_ifs <;> omega
      rw [same] at few
      rcases ancestor.of_set sound.descending within lower with kept | ⟨through, rest⟩
      · exact sound.above kept walk few
      · obtain ⟨front, walk', isSuffix⟩ := walk.upTo (sound.above through walk few)
        have fewer := retreats_le_of_suffix isSuffix
        refine isSuffix.subset (atBlock rest walk' ?_)
        split_ifs at few <;> omega

theorem Sound.visitAll (ordered : Ordered predecessors) (more : Nat) (state : Table × Bool)
    (sound : Sound predecessors state.1 count block) (inner : block ≠ 0)
    (inside : block + more ≤ predecessors.length) :
    Sound predecessors ((List.range' block more).foldl (visitBlock predecessors) state).1 count
      (block + more) := by
  induction more generalizing block state with
  | zero => exact sound
  | succ more ih =>
      rw [List.range'_succ, List.foldl_cons, show block + (more + 1) = block + 1 + more by omega]
      exact ih _ (sound.visit ordered (by omega) inner state.2)
        (Nat.succ_ne_zero block) (by omega)

theorem Sound.sweep (ordered : Ordered predecessors) (sound : Sound predecessors idom count 1) :
    Sound predecessors (sweep predecessors idom).1 (count + 1) 1 := by
  have nonempty := ordered.nonempty
  have done := sound.visitAll ordered (predecessors.length - 1) (idom, false)
    Nat.one_ne_zero (by omega)
  rw [Nat.add_sub_cancel' nonempty] at done
  refine ⟨done.length, done.descending, fun node inside _ => done.known node inside
    (Or.inl inside), ?_⟩
  intro node above path ancestor walk few
  split_ifs at few with isRoot
  · obtain rfl : node = 0 := by omega
    rw [ancestor.of_root]
    exact walk.last_mem
  · refine done.above ancestor walk ?_
    rwa [if_pos (lt_length_of_walk ordered walk)]

theorem sweep_fixed (settled : (sweep predecessors idom).2 = false) :
    (sweep predecessors idom).1 = idom := by
  have unchanged : ∀ (blocks : List Nat) (state : Table × Bool),
      (blocks.foldl (visitBlock predecessors) state).2 = false →
      blocks.foldl (visitBlock predecessors) state = state := by
    intro blocks
    induction blocks with
    | nil => exact fun _ _ => rfl
    | cons block rest ih =>
        intro state settled
        have later := ih _ settled
        rw [List.foldl_cons] at settled ⊢
        rw [later] at settled ⊢
        unfold visitBlock at settled ⊢
        simp only at settled ⊢
        split_ifs at settled ⊢
        rfl
  exact congrArg Prod.fst (unchanged _ _ settled)

theorem Sound.settled (ordered : Ordered predecessors) (sound : Sound predecessors idom count 1)
    (fixed : (Dominators.sweep predecessors idom).1 = idom) (more : Nat) :
    Sound predecessors idom (count + more) 1 := by
  induction more with
  | zero => exact sound
  | succ more ih =>
      have again := ih.sweep ordered
      rwa [fixed] at again

/-- However the iteration ends, the table is as good as after all the sweeps it
was allowed. -/
theorem Sound.iterate (ordered : Ordered predecessors) (allowed : Nat)
    (sound : Sound predecessors idom count 1) :
    ∃ reached ≥ count + allowed,
      Sound predecessors (iterate predecessors allowed idom) reached 1 := by
  induction allowed generalizing idom count with
  | zero => exact ⟨count, Nat.le_refl _, sound⟩
  | succ allowed ih =>
      have swept := sound.sweep ordered
      unfold Dominators.iterate
      simp only
      split_ifs with changed
      · obtain ⟨reached, enough, final⟩ := ih swept
        exact ⟨reached, by omega, final⟩
      · have fixed := sweep_fixed (by simpa using changed)
        rw [fixed]
        exact ⟨count + (allowed + 1), Nat.le_refl _, sound.settled ordered fixed (allowed + 1)⟩

theorem initial_getD (node : Nat) :
    (initial count).getD node none = if node = 0 ∧ 0 < count then some 0 else none := by
  cases count with
  | zero => simp [initial]
  | succ count =>
      cases node with
      | zero => simp [initial, List.replicate_succ]
      | succ node =>
          simp only [initial, List.replicate_succ, List.set_cons_zero, List.getD_cons_succ]
          rw [List.getD_eq_getElem?_getD]
          by_cases inside : node < count
          · simp [inside]
          · simp [inside]

theorem sound_initial (ordered : Ordered predecessors) :
    Sound predecessors (initial predecessors.length) 0 1 := by
  have nothing : ∀ {node dom : Nat}, node ≠ 0 →
      (initial predecessors.length).getD node none ≠ some dom := by
    intro node dom inner
    rw [initial_getD, if_neg fun root => inner root.1]
    exact nofun
  refine ⟨by simp [initial], fun inner immediate => absurd immediate (nothing inner), ?_, ?_⟩
  · intro node _ early
    obtain rfl : node = 0 := by omega
    rw [Known, initial_getD, if_pos ⟨rfl, ordered.nonempty⟩]
    rfl
  · intro node above path ancestor walk _
    cases ancestor with
    | refl => exact walk.last_mem
    | up inner immediate _ => exact absurd immediate (nothing inner)

theorem solve_sound (ordered : Ordered predecessors) :
    ∃ reached ≥ predecessors.length, Sound predecessors (solve predecessors) reached 1 := by
  obtain ⟨reached, enough, sound⟩ :=
    (sound_initial ordered).iterate ordered (predecessors.length * 2 + 10)
  exact ⟨reached, by omega, sound⟩

theorem solve_descending (ordered : Ordered predecessors) : Descending (solve predecessors) := by
  obtain ⟨_, -, sound⟩ := solve_sound ordered
  exact sound.descending

/-- Every ancestor in the solved table dominates. A path without repetition has
fewer retreating edges than there are blocks, so the sweeps allowed suffice. -/
theorem solve_dominates (ordered : Ordered predecessors) {node above : Nat}
    (ancestor : Ancestor (solve predecessors) node above) :
    Dominates (DenseEdge predecessors) 0 above node := by
  obtain ⟨reached, enough, sound⟩ := solve_sound ordered
  intro path walk
  obtain ⟨shorter, walk', within, distinct⟩ := walk.simple
  have inRange : shorter ⊆ List.range predecessors.length := by
    intro other member
    obtain ⟨_, walk'', -⟩ := walk'.upTo member
    exact List.mem_range.mpr (lt_length_of_walk ordered walk'')
  have short : shorter.length ≤ predecessors.length := by
    simpa using (distinct.subperm inRange).length_le
  have few := retreats_lt_length (List.ne_nil_of_mem walk'.last_mem)
  refine within (sound.above ancestor walk' ?_)
  split_ifs <;> omega

end Sweeps

end Dominators

end Rayzor.Analysis
