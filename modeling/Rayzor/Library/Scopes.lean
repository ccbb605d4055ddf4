import Mathlib

/-!
Contract: names in nested scopes, and a visit that sees some of the constructs only.

Owns: the tree of uses, declarations and scopes that a syntax tree comes to, each use with what
encloses it, and which names a visit that skips parts of the tree takes for free.
-/

namespace Rayzor.Library

universe u

/-- What a syntax tree comes to. A declaration reaches to the end of the innermost scope or
branch. A visitor closes scopes, takes a branch for a part of the scope around it, and skips the
rest. -/
inductive ScopePart (σ : Type u) where
  | use (name : σ)
  | declare (name : σ)
  | scope (parts : List (ScopePart σ))
  | branch (parts : List (ScopePart σ))
  | skipped (parts : List (ScopePart σ))

/-- The names bound so far, and those found free. -/
structure Visitor (σ : Type u) where
  bound : Finset σ
  free : Finset σ

/-- The names declared around a place, and those of them that a visitor bound. -/
structure Surroundings (σ : Type u) where
  enclosing : Finset σ
  bound : Finset σ

/-- A use of a name: whether a declaration of it encloses the use, whether a visitor has the name
bound there, and whether it comes there at all. -/
structure Occurrence (σ : Type u) where
  name : σ
  enclosed : Bool
  bound : Bool
  visited : Bool

variable {σ : Type u} [DecidableEq σ]

namespace ScopePart

mutual

def visit (visitor : Visitor σ) : ScopePart σ → Visitor σ
  | .use name =>
      if name ∈ visitor.bound then visitor else { visitor with free := insert name visitor.free }
  | .declare name => { visitor with bound := insert name visitor.bound }
  | .scope parts => { visitAll visitor parts with bound := visitor.bound }
  | .branch parts => visitAll visitor parts
  | .skipped _ => visitor

def visitAll (visitor : Visitor σ) : List (ScopePart σ) → Visitor σ
  | [] => visitor
  | part :: parts => visitAll (visit visitor part) parts

end

mutual

/-- The uses in a part, and what is declared behind it. -/
def walk (visited : Bool) (around : Surroundings σ) :
    ScopePart σ → List (Occurrence σ) × Surroundings σ
  | .use name =>
      ([⟨name, decide (name ∈ around.enclosing), decide (name ∈ around.bound), visited⟩], around)
  | .declare name =>
      ([], ⟨insert name around.enclosing,
        if visited then insert name around.bound else around.bound⟩)
  | .scope parts => ((walkAll visited around parts).1, around)
  | .branch parts =>
      ((walkAll visited around parts).1,
        ⟨around.enclosing, (walkAll visited around parts).2.bound⟩)
  | .skipped parts => walkAll false around parts

def walkAll (visited : Bool) (around : Surroundings σ) :
    List (ScopePart σ) → List (Occurrence σ) × Surroundings σ
  | [] => ([], around)
  | part :: parts =>
      ((walk visited around part).1 ++ (walkAll visited (walk visited around part).2 parts).1,
        (walkAll visited (walk visited around part).2 parts).2)

end

theorem visitAll_append (parts rest : List (ScopePart σ)) : ∀ visitor : Visitor σ,
    visitAll visitor (parts ++ rest) = visitAll (visitAll visitor parts) rest := by
  induction parts with
  | nil => exact fun visitor => by rw [List.nil_append, visitAll]
  | cons part parts ih =>
      intro visitor
      rw [List.cons_append, visitAll, ih, visitAll]

theorem visitAll_declare (names : List σ) : ∀ visitor : Visitor σ,
    visitAll visitor (names.map .declare) =
      { visitor with bound := visitor.bound ∪ names.toFinset } := by
  induction names with
  | nil =>
      intro visitor
      rw [List.map_nil, visitAll, List.toFinset_nil, Finset.union_empty]
  | cons name names ih =>
      intro visitor
      rw [List.map_cons, visitAll, visit, ih, List.toFinset_cons,
        Finset.union_insert, Finset.insert_union]

mutual

theorem visit_widen (more free : Finset σ) : ∀ (part : ScopePart σ) (visitor wide : Visitor σ),
    wide.bound = more ∪ visitor.bound →
    (∀ name, name ∈ wide.free ↔ name ∈ free ∨ name ∈ visitor.free ∧ name ∉ more) →
      (visit wide part).bound = more ∪ (visit visitor part).bound ∧
        ∀ name, name ∈ (visit wide part).free ↔
          name ∈ free ∨ name ∈ (visit visitor part).free ∧ name ∉ more
  | .use name, visitor, wide, isBound, isFree => by
      unfold visit
      by_cases known : name ∈ visitor.bound
      · rw [if_pos known, if_pos (isBound ▸ Finset.mem_union_right _ known)]
        exact ⟨isBound, isFree⟩
      · rw [if_neg known]
        by_cases inMore : name ∈ more
        · rw [if_pos (isBound ▸ Finset.mem_union_left _ inMore)]
          refine ⟨isBound, fun other => ?_⟩
          rw [isFree, Finset.mem_insert]
          by_cases same : other = name
          · subst same
            simp [inMore]
          · simp [same]
        · have unknown : name ∉ wide.bound := by
            rw [isBound, Finset.mem_union, not_or]
            exact ⟨inMore, known⟩
          rw [if_neg unknown]
          refine ⟨isBound, fun other => ?_⟩
          rw [Finset.mem_insert, Finset.mem_insert, isFree]
          by_cases same : other = name
          · subst same
            simp [inMore]
          · simp [same]
  | .declare name, visitor, wide, isBound, isFree => by
      unfold visit
      refine ⟨?_, isFree⟩
      show insert name wide.bound = more ∪ insert name visitor.bound
      rw [isBound, Finset.union_insert]
  | .scope parts, visitor, wide, isBound, isFree => by
      unfold visit
      exact ⟨isBound, (visitAll_widen more free parts visitor wide isBound isFree).2⟩
  | .branch parts, visitor, wide, isBound, isFree => by
      unfold visit
      exact visitAll_widen more free parts visitor wide isBound isFree
  | .skipped _, _, _, isBound, isFree => by
      unfold visit
      exact ⟨isBound, isFree⟩

theorem visitAll_widen (more free : Finset σ) : ∀ (parts : List (ScopePart σ))
    (visitor wide : Visitor σ), wide.bound = more ∪ visitor.bound →
    (∀ name, name ∈ wide.free ↔ name ∈ free ∨ name ∈ visitor.free ∧ name ∉ more) →
      (visitAll wide parts).bound = more ∪ (visitAll visitor parts).bound ∧
        ∀ name, name ∈ (visitAll wide parts).free ↔
          name ∈ free ∨ name ∈ (visitAll visitor parts).free ∧ name ∉ more
  | [], _, _, isBound, isFree => by
      unfold visitAll
      exact ⟨isBound, isFree⟩
  | part :: parts, visitor, wide, isBound, isFree => by
      unfold visitAll
      have first := visit_widen more free part visitor wide isBound isFree
      exact visitAll_widen more free parts _ _ first.1 first.2

end

mutual

theorem walk_skipped (around : Surroundings σ) : ∀ part : ScopePart σ,
    (walk false around part).2.bound = around.bound ∧
      ∀ occurrence ∈ (walk false around part).1, occurrence.visited = false
  | .use name => by
      unfold walk
      refine ⟨rfl, fun occurrence member => ?_⟩
      rw [List.mem_singleton.mp member]
  | .declare name => by
      unfold walk
      exact ⟨rfl, fun occurrence member => by cases member⟩
  | .scope parts => by
      unfold walk
      exact ⟨rfl, (walkAll_skipped around parts).2⟩
  | .branch parts => by
      unfold walk
      exact walkAll_skipped around parts
  | .skipped parts => by
      unfold walk
      exact walkAll_skipped around parts

theorem walkAll_skipped (around : Surroundings σ) : ∀ parts : List (ScopePart σ),
    (walkAll false around parts).2.bound = around.bound ∧
      ∀ occurrence ∈ (walkAll false around parts).1, occurrence.visited = false
  | [] => by
      unfold walkAll
      exact ⟨rfl, fun occurrence member => by cases member⟩
  | part :: parts => by
      have first := walk_skipped around part
      have rest := walkAll_skipped (walk false around part).2 parts
      unfold walkAll
      refine ⟨rest.1.trans first.1, fun occurrence member => ?_⟩
      rcases List.mem_append.mp member with inFirst | inRest
      · exact first.2 occurrence inFirst
      · exact rest.2 occurrence inRest

end

def FoundIn (occurrences : List (Occurrence σ)) (name : σ) : Prop :=
  ∃ occurrence ∈ occurrences,
    occurrence.name = name ∧ occurrence.visited = true ∧ occurrence.bound = false

omit [DecidableEq σ] in
theorem foundIn_append {first second : List (Occurrence σ)} {name : σ} :
    FoundIn (first ++ second) name ↔ FoundIn first name ∨ FoundIn second name := by
  unfold FoundIn
  simp only [List.mem_append, or_and_right, exists_or]

/-- A visit binds as the walk says, and finds the names of the uses that are visited where they
are not bound. -/
structure Tracks (visitor after : Visitor σ) (walked : List (Occurrence σ) × Surroundings σ) :
    Prop where
  bound : after.bound = walked.2.bound
  free : ∀ name, name ∈ after.free ↔ name ∈ visitor.free ∨ FoundIn walked.1 name

mutual

theorem visit_tracks : ∀ (part : ScopePart σ) (visitor : Visitor σ) (around : Surroundings σ),
    visitor.bound = around.bound → Tracks visitor (visit visitor part) (walk true around part)
  | .use name, visitor, around, same => by
      unfold visit walk
      by_cases known : name ∈ visitor.bound
      · rw [if_pos known]
        refine ⟨same, fun other => (or_iff_left ?_).symm⟩
        rintro ⟨occurrence, member, -, -, notBound⟩
        rw [List.mem_singleton.mp member] at notBound
        exact of_decide_eq_false notBound (same ▸ known)
      · rw [if_neg known]
        refine ⟨same, fun other => ?_⟩
        rw [Finset.mem_insert, or_comm]
        apply or_congr_right
        constructor
        · rintro rfl
          exact ⟨_, List.mem_singleton_self _, rfl, rfl, decide_eq_false (same ▸ known)⟩
        · rintro ⟨occurrence, member, isName, -⟩
          rw [List.mem_singleton.mp member] at isName
          exact isName.symm
  | .declare name, visitor, around, same => by
      unfold visit walk
      refine ⟨?_, fun other => (or_iff_left ?_).symm⟩
      · show insert name visitor.bound = insert name around.bound
        rw [same]
      · rintro ⟨occurrence, member, -⟩
        cases member
  | .scope parts, visitor, around, same => by
      unfold visit walk
      exact ⟨same, (visitAll_tracks parts visitor around same).free⟩
  | .branch parts, visitor, around, same => by
      unfold visit walk
      have inside := visitAll_tracks parts visitor around same
      exact ⟨inside.bound, inside.free⟩
  | .skipped parts, visitor, around, same => by
      unfold visit walk
      have unseen := walkAll_skipped around parts
      refine ⟨same.trans unseen.1.symm, fun other => (or_iff_left ?_).symm⟩
      rintro ⟨occurrence, member, -, isVisited, -⟩
      rw [unseen.2 occurrence member] at isVisited
      cases isVisited

theorem visitAll_tracks : ∀ (parts : List (ScopePart σ)) (visitor : Visitor σ)
    (around : Surroundings σ), visitor.bound = around.bound →
      Tracks visitor (visitAll visitor parts) (walkAll true around parts)
  | [], visitor, around, same => by
      unfold visitAll walkAll
      refine ⟨same, fun other => (or_iff_left ?_).symm⟩
      rintro ⟨occurrence, member, -⟩
      cases member
  | part :: parts, visitor, around, same => by
      have first := visit_tracks part visitor around same
      have rest := visitAll_tracks parts _ _ first.bound
      unfold visitAll walkAll
      refine ⟨rest.bound, fun name => ?_⟩
      rw [rest.free, first.free, foundIn_append, or_assoc]

end

/-- Some use of the name has no declaration of it around. -/
def FreeIn (occurrences : List (Occurrence σ)) (name : σ) : Prop :=
  ∃ occurrence ∈ occurrences, occurrence.name = name ∧ occurrence.enclosed = false

/-- A use that a visit misses: it does not come there, or has the name bound, although nothing
declares it. -/
def Missed (occurrence : Occurrence σ) : Prop :=
  occurrence.enclosed = false ∧ (occurrence.visited = false ∨ occurrence.bound = true)

/-- A use that a visit takes for free although something declares it. -/
def Mistaken (occurrence : Occurrence σ) : Prop :=
  occurrence.enclosed = true ∧ occurrence.visited = true ∧ occurrence.bound = false

omit [DecidableEq σ] in
/-- What is found is what is free exactly when each missed use is made up for by another that is
found, and each mistaken one by another that is free. -/
theorem found_eq_free_iff {occurrences : List (Occurrence σ)} :
    (∀ name, FoundIn occurrences name ↔ FreeIn occurrences name) ↔
      (∀ occurrence ∈ occurrences, Missed occurrence → FoundIn occurrences occurrence.name) ∧
      ∀ occurrence ∈ occurrences, Mistaken occurrence → FreeIn occurrences occurrence.name := by
  constructor
  · intro agree
    constructor
    · intro occurrence member missed
      exact (agree _).mpr ⟨occurrence, member, rfl, missed.1⟩
    · intro occurrence member mistaken
      exact (agree _).mp ⟨occurrence, member, rfl, mistaken.2.1, mistaken.2.2⟩
  · rintro ⟨madeUp, madeUp'⟩ name
    constructor
    · rintro ⟨occurrence, member, rfl, isVisited, notBound⟩
      cases enclosed : occurrence.enclosed with
      | false => exact ⟨occurrence, member, rfl, enclosed⟩
      | true => exact madeUp' occurrence member ⟨enclosed, isVisited, notBound⟩
    · rintro ⟨occurrence, member, rfl, notEnclosed⟩
      cases isVisited : occurrence.visited with
      | false => exact madeUp occurrence member ⟨notEnclosed, .inl isVisited⟩
      | true =>
          cases isBound : occurrence.bound with
          | false => exact ⟨occurrence, member, rfl, isVisited, isBound⟩
          | true => exact madeUp occurrence member ⟨notEnclosed, .inr isBound⟩

end ScopePart

end Rayzor.Library
