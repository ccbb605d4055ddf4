import Rayzor.Library.Graph
import Rayzor.Library.OrdMap

/-!
Contract: forward may-analysis by a worklist, for states that gain and keep facts.

Owns: the loop over a stack of nodes, the laws under which a state is the set of
its facts, that the loop ends, and that it ends with exactly the facts some path
from the entry brings.
-/

namespace Rayzor.Library

open Rayzor.Library.Graph (EntryPath Reachable)

universe u v w

variable {β : Type u} {σ : Type v} {φ : Type w} [LinearOrder β]

structure Analysis (β : Type u) (σ : Type v) where
  entry : β
  successors : β → List β
  predecessors : β → List β
  bottom : σ
  join : σ → σ → σ
  transfer : β → σ → σ

structure Solving (β : Type u) (σ : Type v) [LinearOrder β] where
  inState : OrdMap β σ
  outState : OrdMap β σ
  worklist : List β
  queued : Finset β
  reachable : Finset β

/-- A successor is reached, and goes on the stack when it is new or there is more to tell it. -/
def Solving.push (grew : Bool) (solving : Solving β σ) (next : β) : Solving β σ :=
  if (grew ∨ next ∉ solving.reachable) ∧ next ∉ solving.queued then
    { solving with
      reachable := insert next solving.reachable
      queued := insert next solving.queued
      worklist := next :: solving.worklist }
  else { solving with reachable := insert next solving.reachable }

namespace Analysis

variable (analysis : Analysis β σ)

def start (nodes : List β) : Solving β σ where
  inState := OrdMap.ofList (nodes.map fun id => (id, analysis.bottom))
  outState := OrdMap.ofList (nodes.map fun id => (id, analysis.bottom))
  worklist := [analysis.entry]
  queued := {analysis.entry}
  reachable := {analysis.entry}

def arriving (solving : Solving β σ) (id : β) : σ :=
  (analysis.predecessors id).foldl (fun state pred =>
    if pred ∈ solving.reachable then
      (solving.outState.get? pred).elim state fun out => analysis.join state out
    else state) analysis.bottom

variable [DecidableEq σ]

/-- Whether the state out of a node would change. -/
def grows (solving : Solving β σ) (id : β) : Bool :=
  solving.outState.get? id ≠ some (analysis.transfer id (analysis.arriving solving id))

/-- A node that was taken off the stack, with the rest of the stack. -/
def visit (solving : Solving β σ) (id : β) (rest : List β) : Solving β σ :=
  (analysis.successors id).foldl (Solving.push (analysis.grows solving id))
    { inState := solving.inState.insert id (analysis.arriving solving id)
      outState :=
        if analysis.grows solving id then
          solving.outState.insert id (analysis.transfer id (analysis.arriving solving id))
        else solving.outState
      worklist := rest
      queued := solving.queued.erase id
      reachable := solving.reachable }

/-- The loop, with a bound on its steps. -/
def run : Nat → Solving β σ → Option (Solving β σ)
  | 0, _ => none
  | fuel + 1, solving =>
      match solving.worklist with
      | [] => some solving
      | id :: rest => run fuel (analysis.visit solving id rest)

end Analysis

def Analysis.Edge (analysis : Analysis β σ) (node next : β) : Prop :=
  next ∈ analysis.successors node

/-- Laws of an analysis: a state is the set of the facts it holds, a join is the union, and a
transfer makes some facts and keeps some. -/
structure GainsAndKeeps (analysis : Analysis β σ) (φ : Type w) where
  Good : σ → Prop
  Holds : σ → φ → Prop
  Gains : β → φ → Prop
  Keeps : β → φ → Prop
  nodes : List β
  facts : List φ
  good_bottom : Good analysis.bottom
  good_join : ∀ {left right}, Good left → Good right → Good (analysis.join left right)
  good_transfer : ∀ {state} id, Good state → Good (analysis.transfer id state)
  holds_bottom : ∀ fact, ¬Holds analysis.bottom fact
  holds_join : ∀ {left right}, Good left → Good right →
    ∀ fact, Holds (analysis.join left right) fact ↔ Holds left fact ∨ Holds right fact
  holds_transfer : ∀ {state} id, Good state →
    ∀ fact, Holds (analysis.transfer id state) fact ↔ Gains id fact ∨ Holds state fact ∧ Keeps id fact
  ext : ∀ {left right}, Good left → Good right →
    (∀ fact ∈ facts, Holds left fact ↔ Holds right fact) → left = right
  predecessors : ∀ {node next}, node ∈ analysis.predecessors next ↔ analysis.Edge node next
  entry_mem : analysis.entry ∈ nodes
  successors_mem : ∀ {node next}, analysis.Edge node next → next ∈ nodes

namespace GainsAndKeeps

variable {analysis : Analysis β σ} (laws : GainsAndKeeps analysis φ)

/-- Some path from the entry brings a fact out of a node. -/
inductive Leaves : β → φ → Prop where
  | gained {id : β} {fact : φ} (reached : Reachable analysis.Edge analysis.entry id)
      (gains : laws.Gains id fact) : Leaves id fact
  | kept {pred id : β} {fact : φ} (leaves : Leaves pred fact) (along : analysis.Edge pred id)
      (keeps : laws.Keeps id fact) : Leaves id fact

/-- Some path from the entry brings a fact to a node. -/
def Enters (id : β) (fact : φ) : Prop := ∃ pred, analysis.Edge pred id ∧ laws.Leaves pred fact

def Out (solving : Solving β σ) (id : β) (fact : φ) : Prop :=
  ∃ state, solving.outState.get? id = some state ∧ laws.Holds state fact

def In (solving : Solving β σ) (id : β) (fact : φ) : Prop :=
  ∃ state, solving.inState.get? id = some state ∧ laws.Holds state fact

/-- A fact that the states out of the predecessors bring to a node. -/
def Brought (solving : Solving β σ) (id : β) (fact : φ) : Prop :=
  ∃ pred, analysis.Edge pred id ∧ laws.Out solving pred fact

/-- A fact that is to hold behind a node. -/
def Due (solving : Solving β σ) (id : β) (fact : φ) : Prop :=
  laws.Gains id fact ∨ laws.Brought solving id fact ∧ laws.Keeps id fact

structure AllGood (solving : Solving β σ) : Prop where
  ins : ∀ {id state}, solving.inState.get? id = some state → laws.Good state
  outs : ∀ {id state}, solving.outState.get? id = some state → laws.Good state

/-- The set of queued nodes is that of the stack, which has each once, and all are reached. -/
structure Stacked (solving : Solving β σ) : Prop where
  queued : ∀ id, id ∈ solving.queued ↔ id ∈ solving.worklist
  once : solving.worklist.Nodup
  reached : ∀ id ∈ solving.worklist, id ∈ solving.reachable

/-- A node that needs no visit. -/
structure Settled (solving : Solving β σ) (id : β) : Prop where
  out : ∀ fact, laws.Due solving id fact → laws.Out solving id fact
  present : ∃ state, solving.inState.get? id = some state
  ins : ∀ fact, laws.In solving id fact ↔ laws.Brought solving id fact
  next : ∀ next, analysis.Edge id next → next ∈ solving.reachable

structure Inv (solving : Solving β σ) : Prop where
  good : laws.AllGood solving
  stacked : Stacked solving
  entered : analysis.entry ∈ solving.reachable
  reached : ∀ id ∈ solving.reachable, Reachable analysis.Edge analysis.entry id
  sound : ∀ id fact, laws.Out solving id fact → laws.Leaves id fact
  ascending : ∀ id fact, laws.Out solving id fact →
    id ∈ solving.reachable ∧ laws.Due solving id fact
  settled : ∀ id ∈ solving.reachable, id ∉ solving.worklist → laws.Settled solving id

section Arriving

variable {laws} {solving : Solving β σ}

theorem holds_arrived (good : laws.AllGood solving) (preds : List β) :
    ∀ {state : σ}, laws.Good state →
      laws.Good (preds.foldl (fun state pred =>
        if pred ∈ solving.reachable then
          (solving.outState.get? pred).elim state fun out => analysis.join state out
        else state) state) ∧
      ∀ fact, laws.Holds (preds.foldl (fun state pred =>
        if pred ∈ solving.reachable then
          (solving.outState.get? pred).elim state fun out => analysis.join state out
        else state) state) fact ↔
          laws.Holds state fact ∨
            ∃ pred ∈ preds, pred ∈ solving.reachable ∧ laws.Out solving pred fact := by
  induction preds with
  | nil =>
      intro state isGood
      refine ⟨isGood, fun fact => ?_⟩
      simp
  | cons pred preds ih =>
      intro state isGood
      rw [List.foldl_cons]
      by_cases reached : pred ∈ solving.reachable
      · rw [if_pos reached]
        cases found : solving.outState.get? pred with
        | none =>
            have without : ∀ fact, ¬laws.Out solving pred fact := by
              rintro fact ⟨out, isOut, -⟩
              rw [found] at isOut
              cases isOut
            simpa [without] using ih isGood
        | some out =>
            have isOut : ∀ fact, laws.Out solving pred fact ↔ laws.Holds out fact := by
              intro fact
              simp [Out, found]
            have joined := ih (laws.good_join isGood (good.outs found))
            refine ⟨joined.1, fun fact => (joined.2 fact).trans ?_⟩
            rw [laws.holds_join isGood (good.outs found), List.exists_mem_cons_iff, isOut, or_assoc]
            simp only [reached, true_and]
      · rw [if_neg reached]
        simpa [reached] using ih isGood

theorem good_arriving (good : laws.AllGood solving) (id : β) :
    laws.Good (analysis.arriving solving id) :=
  (holds_arrived good _ laws.good_bottom).1

/-- What arrives is what the predecessors bring. -/
theorem Inv.holds_arriving (inv : laws.Inv solving) (id : β) (fact : φ) :
    laws.Holds (analysis.arriving solving id) fact ↔ laws.Brought solving id fact := by
  refine ((holds_arrived inv.good _ laws.good_bottom).2 fact).trans ?_
  constructor
  · rintro (atBottom | ⟨pred, isPred, -, out⟩)
    · exact absurd atBottom (laws.holds_bottom fact)
    · exact ⟨pred, laws.predecessors.mp isPred, out⟩
  · rintro ⟨pred, along, out⟩
    exact Or.inr ⟨pred, laws.predecessors.mpr along, (inv.ascending pred fact out).1, out⟩

theorem Inv.holds_exit (inv : laws.Inv solving) (id : β) (fact : φ) :
    laws.Holds (analysis.transfer id (analysis.arriving solving id)) fact ↔
      laws.Due solving id fact := by
  rw [laws.holds_transfer id (good_arriving inv.good id), inv.holds_arriving]
  rfl

theorem Inv.leaves_of_due (inv : laws.Inv solving) {id : β} (reached : id ∈ solving.reachable) {fact : φ}
    (due : laws.Due solving id fact) : laws.Leaves id fact := by
  rcases due with gains | ⟨⟨pred, along, out⟩, keeps⟩
  · exact .gained (inv.reached id reached) gains
  · exact .kept (inv.sound pred fact out) along keeps

end Arriving

section Pushes

variable {solving : Solving β σ} {grew : Bool}

theorem inState_pushes (nexts : List β) :
    ∀ solving : Solving β σ, (nexts.foldl (Solving.push grew) solving).inState = solving.inState := by
  induction nexts with
  | nil => exact fun _ => rfl
  | cons next nexts ih =>
      intro solving
      rw [List.foldl_cons, ih, Solving.push]
      split <;> rfl

theorem outState_pushes (nexts : List β) :
    ∀ solving : Solving β σ,
      (nexts.foldl (Solving.push grew) solving).outState = solving.outState := by
  induction nexts with
  | nil => exact fun _ => rfl
  | cons next nexts ih =>
      intro solving
      rw [List.foldl_cons, ih, Solving.push]
      split <;> rfl

theorem reachable_push (next : β) :
    (solving.push grew next).reachable = insert next solving.reachable := by
  unfold Solving.push
  split <;> rfl

theorem mem_reachable_pushes (nexts : List β) (id : β) :
    ∀ solving : Solving β σ, id ∈ (nexts.foldl (Solving.push grew) solving).reachable ↔
      id ∈ solving.reachable ∨ id ∈ nexts := by
  induction nexts with
  | nil => intro solving; simp
  | cons next nexts ih =>
      intro solving
      rw [List.foldl_cons, ih, reachable_push, Finset.mem_insert, List.mem_cons]
      tauto

theorem Stacked.push (stacked : Stacked solving) (next : β) : Stacked (solving.push grew next) := by
  unfold Solving.push
  split_ifs with isNew
  · have notOn : next ∉ solving.worklist := fun on => isNew.2 ((stacked.queued next).mpr on)
    refine ⟨fun id => ?_, List.nodup_cons.mpr ⟨notOn, stacked.once⟩, fun id isOn => ?_⟩
    · simp [stacked.queued id]
    · rcases List.mem_cons.mp isOn with rfl | isOn
      · exact Finset.mem_insert_self _ _
      · exact Finset.mem_insert_of_mem (stacked.reached id isOn)
  · exact ⟨stacked.queued, stacked.once,
      fun id isOn => Finset.mem_insert_of_mem (stacked.reached id isOn)⟩

theorem mem_worklist_push (stacked : Stacked solving) (next id : β) :
    id ∈ (solving.push grew next).worklist ↔ id ∈ solving.worklist ∨
      id = next ∧ (grew ∨ id ∉ solving.reachable) := by
  unfold Solving.push
  split_ifs with isNew
  · show id ∈ next :: solving.worklist ↔ _
    rw [List.mem_cons]
    constructor
    · rintro (rfl | isOn)
      · exact Or.inr ⟨rfl, isNew.1⟩
      · exact Or.inl isOn
    · rintro (isOn | ⟨rfl, -⟩)
      · exact Or.inr isOn
      · exact Or.inl rfl
  · constructor
    · exact Or.inl
    · rintro (isOn | ⟨rfl, more⟩)
      · exact isOn
      · by_contra notOn
        exact isNew ⟨more, fun isQueued => notOn ((stacked.queued id).mp isQueued)⟩

theorem stacked_pushes (nexts : List β) : ∀ solving : Solving β σ, Stacked solving →
    Stacked (nexts.foldl (Solving.push grew) solving) := by
  induction nexts with
  | nil => exact fun _ stacked => stacked
  | cons next nexts ih =>
      exact fun solving stacked => ih _ (stacked.push next)

theorem mem_worklist_pushes (nexts : List β) (id : β) : ∀ solving : Solving β σ, Stacked solving →
    (id ∈ (nexts.foldl (Solving.push grew) solving).worklist ↔ id ∈ solving.worklist ∨
      id ∈ nexts ∧ (grew ∨ id ∉ solving.reachable)) := by
  induction nexts with
  | nil => intro solving _; simp
  | cons next nexts ih =>
      intro solving stacked
      rw [List.foldl_cons, ih _ (stacked.push next),
        mem_worklist_push stacked, reachable_push, Finset.mem_insert, List.mem_cons]
      by_cases same : id = next
      · subst same
        simp only [true_and, true_or, not_true_eq_false, or_false]
        tauto
      · simp only [same, false_and, or_false, false_or]

/-- Nothing goes on the stack when there is nothing new. -/
theorem worklist_pushes_of_known (nexts : List β) : ∀ solving : Solving β σ,
    (∀ next ∈ nexts, next ∈ solving.reachable) →
      (nexts.foldl (Solving.push false) solving).worklist = solving.worklist := by
  induction nexts with
  | nil => exact fun _ _ => rfl
  | cons next nexts ih =>
      intro solving known
      have isKnown := known next List.mem_cons_self
      have pushed : (solving.push false next).worklist = solving.worklist := by
        unfold Solving.push
        rw [if_neg (by simp [isKnown])]
      rw [List.foldl_cons, ih, pushed]
      intro other isOther
      rw [reachable_push]
      exact Finset.mem_insert_of_mem (known other (List.mem_cons_of_mem _ isOther))

theorem Stacked.pop (stacked : Stacked solving) {id : β} {rest : List β}
    (top : solving.worklist = id :: rest)
    (inState outState : OrdMap β σ) : Stacked
      { inState := inState, outState := outState, worklist := rest,
        queued := solving.queued.erase id, reachable := solving.reachable } := by
  have once := stacked.once
  rw [top, List.nodup_cons] at once
  refine ⟨fun other => ?_, once.2, fun other isOn => stacked.reached other ?_⟩
  · rw [Finset.mem_erase, stacked.queued, top, List.mem_cons]
    constructor
    · rintro ⟨different, isId | isOn⟩
      · exact absurd isId different
      · exact isOn
    · intro isOn
      exact ⟨fun isId => once.1 (isId ▸ isOn), Or.inr isOn⟩
  · rw [top]
    exact List.mem_cons_of_mem _ isOn

end Pushes

section Visit

variable [DecidableEq σ] {laws} {solving : Solving β σ} {id : β} {rest : List β}

theorem get?_inState_visit (other : β) :
    (analysis.visit solving id rest).inState.get? other =
      if other = id then some (analysis.arriving solving id) else solving.inState.get? other := by
  unfold Analysis.visit
  rw [inState_pushes, OrdMap.get?_insert]

theorem get?_outState_visit (other : β) :
    (analysis.visit solving id rest).outState.get? other =
      if other = id then some (analysis.transfer id (analysis.arriving solving id))
      else solving.outState.get? other := by
  unfold Analysis.visit
  rw [outState_pushes]
  by_cases grew : analysis.grows solving id = true
  · rw [if_pos grew, OrdMap.get?_insert]
  · have same : solving.outState.get? id =
        some (analysis.transfer id (analysis.arriving solving id)) := by
      simpa [Analysis.grows] using grew
    rw [if_neg grew]
    split_ifs with isId
    · rw [isId]
      exact same
    · rfl

theorem mem_reachable_visit (other : β) : other ∈ (analysis.visit solving id rest).reachable ↔
    other ∈ solving.reachable ∨ analysis.Edge id other :=
  mem_reachable_pushes _ other _

theorem stacked_visit (stacked : Stacked solving) (top : solving.worklist = id :: rest) :
    Stacked (analysis.visit solving id rest) :=
  stacked_pushes _ _ (stacked.pop top _ _)

theorem mem_worklist_visit (stacked : Stacked solving) (top : solving.worklist = id :: rest)
    (other : β) : other ∈ (analysis.visit solving id rest).worklist ↔ other ∈ rest ∨
      analysis.Edge id other ∧ (analysis.grows solving id ∨ other ∉ solving.reachable) :=
  mem_worklist_pushes _ other _ (stacked.pop top _ _)

theorem Inv.out_visit (inv : laws.Inv solving) (other : β) (fact : φ) :
    laws.Out (analysis.visit solving id rest) other fact ↔
      if other = id then laws.Due solving id fact else laws.Out solving other fact := by
  unfold Out
  rw [get?_outState_visit]
  split_ifs with isId
  · simp only [Option.some.injEq, exists_eq_left']
    exact inv.holds_exit id fact
  · rfl

theorem Inv.in_visit (inv : laws.Inv solving) (other : β) (fact : φ) :
    laws.In (analysis.visit solving id rest) other fact ↔
      if other = id then laws.Brought solving id fact else laws.In solving other fact := by
  unfold In
  rw [get?_inState_visit]
  split_ifs with isId
  · simp only [Option.some.injEq, exists_eq_left']
    exact inv.holds_arriving id fact
  · rfl

/-- Facts are only added. -/
theorem Inv.out_visit_of_out (inv : laws.Inv solving) {other : β} {fact : φ}
    (out : laws.Out solving other fact) :
    laws.Out (analysis.visit solving id rest) other fact := by
  rw [inv.out_visit]
  split_ifs with isId
  · subst isId
    exact (inv.ascending other fact out).2
  · exact out

theorem Inv.due_visit_of_due (inv : laws.Inv solving) {other : β} {fact : φ}
    (due : laws.Due solving other fact) :
    laws.Due (analysis.visit solving id rest) other fact := by
  apply due.imp_right
  apply And.imp_left
  rintro ⟨pred, along, out⟩
  exact ⟨pred, along, inv.out_visit_of_out out⟩

/-- Where the state out of the node does not change, no fact is added anywhere. -/
theorem Inv.out_visit_of_not_grows (inv : laws.Inv solving)
    (same : analysis.grows solving id = false) (other : β) (fact : φ) :
    laws.Out (analysis.visit solving id rest) other fact ↔ laws.Out solving other fact := by
  rw [inv.out_visit]
  split_ifs with isId
  · subst isId
    have isExit : solving.outState.get? other =
        some (analysis.transfer other (analysis.arriving solving other)) := by
      simpa [Analysis.grows] using same
    unfold Out
    rw [isExit]
    simp only [Option.some.injEq, exists_eq_left']
    exact (inv.holds_exit other fact).symm
  · rfl

/-- A node that is not left on the stack is brought nothing new. -/
theorem Inv.brought_visit (inv : laws.Inv solving) (top : solving.worklist = id :: rest)
    {other : β} (off : other ∉ (analysis.visit solving id rest).worklist) (fact : φ) :
    laws.Brought (analysis.visit solving id rest) other fact ↔ laws.Brought solving other fact := by
  rw [mem_worklist_visit inv.stacked top] at off
  apply exists_congr
  intro pred
  apply and_congr_right
  intro along
  by_cases isId : pred = id
  · subst isId
    have same : analysis.grows solving pred = false := by
      rw [← Bool.not_eq_true]
      exact fun grew => off (Or.inr ⟨along, Or.inl grew⟩)
    exact inv.out_visit_of_not_grows same pred fact
  · rw [inv.out_visit, if_neg isId]

/-- The step lemma: a visit keeps the invariant. -/
theorem Inv.visit (inv : laws.Inv solving) (top : solving.worklist = id :: rest) :
    laws.Inv (analysis.visit solving id rest) := by
  have isReached : id ∈ solving.reachable :=
    inv.stacked.reached id (top ▸ List.mem_cons_self)
  have goodIn := good_arriving inv.good id
  refine ⟨⟨fun {other state} found => ?_, fun {other state} found => ?_⟩,
    stacked_visit inv.stacked top, ?_, ?_, ?_, ?_, ?_⟩
  · rw [get?_inState_visit] at found
    split_ifs at found
    · cases found
      exact goodIn
    · exact inv.good.ins found
  · rw [get?_outState_visit] at found
    split_ifs at found
    · cases found
      exact laws.good_transfer id goodIn
    · exact inv.good.outs found
  · exact (mem_reachable_visit _).mpr (Or.inl inv.entered)
  · intro other isReachable
    rcases (mem_reachable_visit other).mp isReachable with before | along
    · exact inv.reached other before
    · obtain ⟨path, walk⟩ := inv.reached id isReached
      exact ⟨_, walk.step along⟩
  · intro other fact out
    rw [inv.out_visit] at out
    split_ifs at out with isId
    · subst isId
      exact inv.leaves_of_due isReached out
    · exact inv.sound other fact out
  · intro other fact out
    rw [inv.out_visit] at out
    split_ifs at out with isId
    · subst isId
      exact ⟨(mem_reachable_visit _).mpr (Or.inl isReached), inv.due_visit_of_due out⟩
    · obtain ⟨reached, due⟩ := inv.ascending other fact out
      exact ⟨(mem_reachable_visit _).mpr (Or.inl reached), inv.due_visit_of_due due⟩
  · intro other reached off
    have brought := inv.brought_visit top off
    have due : ∀ fact, laws.Due (analysis.visit solving id rest) other fact ↔
        laws.Due solving other fact :=
      fun fact => or_congr_right (and_congr_left' (brought fact))
    by_cases isId : other = id
    · subst isId
      refine ⟨fun fact isDue => ?_, ⟨_, (get?_inState_visit _).trans (if_pos rfl)⟩,
        fun fact => ?_, fun next along => (mem_reachable_visit _).mpr (Or.inr along)⟩
      · rw [inv.out_visit, if_pos rfl]
        exact (due fact).mp isDue
      · rw [inv.in_visit, if_pos rfl]
        exact (brought fact).symm
    · have before : other ∈ solving.reachable ∧ other ∉ solving.worklist := by
        rw [mem_worklist_visit inv.stacked top] at off
        constructor
        · by_contra isNew
          rcases (mem_reachable_visit other).mp reached with known | along
          · exact isNew known
          · exact off (Or.inr ⟨along, Or.inr isNew⟩)
        · rw [top, List.mem_cons]
          rintro (same | isOn)
          · exact isId same
          · exact off (Or.inl isOn)
      have settled := inv.settled other before.1 before.2
      refine ⟨fun fact isDue => ?_, ?_, fun fact => ?_, fun next along => ?_⟩
      · exact inv.out_visit_of_out (settled.out fact ((due fact).mp isDue))
      · rw [get?_inState_visit, if_neg isId]
        exact settled.present
      · rw [inv.in_visit, if_neg isId, brought fact]
        exact settled.ins fact
      · exact (mem_reachable_visit _).mpr (Or.inl (settled.next next along))

end Visit

section Ends

open Classical

/-- What a run may still mark: that a node is reached, that there is a state out of it, and that a
fact holds in that state. -/
inductive Mark (β : Type u) (φ : Type w) where
  | reached (id : β)
  | present (id : β)
  | held (id : β) (fact : φ)

def Marked (solving : Solving β σ) : Mark β φ → Prop
  | .reached id => id ∈ solving.reachable
  | .present id => (solving.outState.get? id).isSome
  | .held id fact => laws.Out solving id fact

def marksOf (id : β) : List (Mark β φ) :=
  .reached id :: .present id :: laws.facts.map (.held id)

noncomputable def unmarked (solving : Solving β σ) : Nat :=
  ((laws.nodes.flatMap laws.marksOf).toFinset.filter fun mark => ¬laws.Marked solving mark).card

variable {laws} {solving : Solving β σ} {id : β} {rest : List β}

theorem unmarked_lt {solving' : Solving β σ}
    (kept : ∀ mark, laws.Marked solving mark → laws.Marked solving' mark) (mark : Mark β φ) {id : β}
    (isNode : id ∈ laws.nodes) (listed : mark ∈ laws.marksOf id)
    (before : ¬laws.Marked solving mark) (after : laws.Marked solving' mark) :
    laws.unmarked solving' < laws.unmarked solving := by
  apply Finset.card_lt_card
  rw [Finset.ssubset_iff_of_subset]
  · refine ⟨mark, ?_, ?_⟩
    · rw [Finset.mem_filter, List.mem_toFinset, List.mem_flatMap]
      exact ⟨⟨id, isNode, listed⟩, before⟩
    · rw [Finset.mem_filter, not_and, not_not]
      exact fun _ => after
  · apply Finset.monotone_filter_right
    exact fun mark _ left marked => left (kept mark marked)

theorem unmarked_le {solving' : Solving β σ}
    (kept : ∀ mark, laws.Marked solving mark → laws.Marked solving' mark) :
    laws.unmarked solving' ≤ laws.unmarked solving := by
  apply Finset.card_le_card
  apply Finset.monotone_filter_right
  exact fun mark _ left marked => left (kept mark marked)

theorem Inv.mem_nodes (inv : laws.Inv solving) {id : β} (reached : id ∈ solving.reachable) :
    id ∈ laws.nodes := by
  obtain ⟨path, walk⟩ := inv.reached id reached
  cases walk with
  | start => exact laws.entry_mem
  | step _ along => exact laws.successors_mem along

variable [DecidableEq σ]

theorem Inv.marked_visit (inv : laws.Inv solving) (mark : Mark β φ)
    (marked : laws.Marked solving mark) : laws.Marked (analysis.visit solving id rest) mark := by
  cases mark with
  | reached other => exact (mem_reachable_visit other).mpr (Or.inl marked)
  | present other =>
      show (Solving.outState _ |>.get? other).isSome
      rw [get?_outState_visit]
      split_ifs
      · rfl
      · exact marked
  | held other fact => exact inv.out_visit_of_out marked

/-- A state that grows marks something. -/
theorem Inv.unmarked_lt_of_grows (inv : laws.Inv solving) (isNode : id ∈ laws.nodes)
    (grew : analysis.grows solving id = true) :
    laws.unmarked (analysis.visit solving id rest) < laws.unmarked solving := by
  have isOut : (analysis.visit solving id rest).outState.get? id =
      some (analysis.transfer id (analysis.arriving solving id)) := by
    rw [get?_outState_visit, if_pos rfl]
  cases found : solving.outState.get? id with
  | none =>
      apply unmarked_lt inv.marked_visit (.present id) isNode (by simp [marksOf])
      · simp [Marked, found]
      · simp [Marked, isOut]
  | some out =>
      have different : out ≠ analysis.transfer id (analysis.arriving solving id) := by
        rintro rfl
        simp [Analysis.grows, found] at grew
      have isHeld : ∀ fact, laws.Out solving id fact ↔ laws.Holds out fact := by
        intro fact
        simp [Out, found]
      obtain ⟨fact, isFact, fresh⟩ : ∃ fact ∈ laws.facts, ¬(laws.Holds out fact ↔
          laws.Holds (analysis.transfer id (analysis.arriving solving id)) fact) := by
        by_contra none
        push Not at none
        exact different (laws.ext (inv.good.outs found)
          (laws.good_transfer id (good_arriving inv.good id)) none)
      have due : laws.Holds out fact →
          laws.Holds (analysis.transfer id (analysis.arriving solving id)) fact :=
        fun held => (inv.holds_exit id fact).mpr (inv.ascending id fact ((isHeld fact).mpr held)).2
      apply unmarked_lt inv.marked_visit (.held id fact) isNode
      · simp [marksOf, isFact]
      · rw [Marked, isHeld]
        exact fun held => fresh (iff_of_true held (due held))
      · rw [Marked, inv.out_visit, if_pos rfl, ← inv.holds_exit]
        by_contra notHeld
        exact fresh (iff_of_false (fun held => notHeld (due held)) notHeld)

/-- Each visit leaves fewer marks, or as many and a shorter stack. -/
theorem Inv.visit_decreases (inv : laws.Inv solving) (top : solving.worklist = id :: rest)
    (isNode : id ∈ laws.nodes) :
    laws.unmarked (analysis.visit solving id rest) < laws.unmarked solving ∨
      laws.unmarked (analysis.visit solving id rest) ≤ laws.unmarked solving ∧
        (analysis.visit solving id rest).worklist.length < solving.worklist.length := by
  by_cases grew : analysis.grows solving id = true
  · exact Or.inl (inv.unmarked_lt_of_grows isNode grew)
  · by_cases known : ∀ next ∈ analysis.successors id, next ∈ solving.reachable
    · right
      refine ⟨unmarked_le inv.marked_visit, ?_⟩
      have same : (analysis.visit solving id rest).worklist = rest := by
        unfold Analysis.visit
        rw [Bool.not_eq_true] at grew
        rw [grew]
        exact worklist_pushes_of_known _ _ known
      rw [same, top]
      exact Nat.lt_succ_self _
    · push Not at known
      obtain ⟨next, along, isNew⟩ := known
      left
      exact unmarked_lt inv.marked_visit (.reached next) (laws.successors_mem along)
        (by simp [marksOf]) isNew ((mem_reachable_visit next).mpr (Or.inr along))

/-- The run lemma: the loop ends, and the invariant holds of what it ends with. -/
theorem Inv.run (inv : laws.Inv solving) : ∃ enough, ∀ fuel, enough ≤ fuel →
    ∃ final, analysis.run fuel solving = some final ∧ laws.Inv final ∧ final.worklist = [] := by
  induction measure : toLex (laws.unmarked solving, solving.worklist.length) using
    WellFoundedLT.induction generalizing solving with
  | ind now ih =>
      subst measure
      cases top : solving.worklist with
      | nil =>
          refine ⟨1, fun fuel enough => ⟨solving, ?_, inv, top⟩⟩
          obtain ⟨fuel, rfl⟩ := Nat.exists_eq_add_of_le' enough
          simp only [Analysis.run, top]
      | cons id rest =>
          have isNode := inv.mem_nodes (inv.stacked.reached id (top ▸ List.mem_cons_self))
          have less : toLex (laws.unmarked (analysis.visit solving id rest),
              (analysis.visit solving id rest).worklist.length) <
                toLex (laws.unmarked solving, solving.worklist.length) := by
            rw [Prod.Lex.toLex_lt_toLex]
            rcases inv.visit_decreases top isNode with fewer | ⟨few, shorter⟩
            · exact Or.inl fewer
            · rcases few.lt_or_eq with fewer | same
              · exact Or.inl fewer
              · exact Or.inr ⟨same, shorter⟩
          obtain ⟨enough, ends⟩ := ih _ less (inv.visit top) rfl
          refine ⟨enough + 1, fun fuel isEnough => ?_⟩
          obtain ⟨fuel, rfl⟩ := Nat.exists_eq_add_of_le' isEnough
          obtain ⟨final, isFinal, finalInv, done⟩ := ends (fuel + enough) (Nat.le_add_left _ _)
          have step : analysis.run (fuel + enough + 1) solving =
              analysis.run (fuel + enough) (analysis.visit solving id rest) := by
            simp only [Analysis.run, top]
          exact ⟨final, step.trans isFinal, finalInv, done⟩

end Ends

section Ended

variable {laws} {solving : Solving β σ}

theorem start_inv (keys : List β) : laws.Inv (analysis.start keys) := by
  have isBottom : ∀ {id state},
      (OrdMap.ofList (keys.map fun id => (id, analysis.bottom))).get? id = some state →
        state = analysis.bottom := by
    intro id state found
    have listed := OrdMap.mem_of_get?_ofList found
    obtain ⟨key, -, isEntry⟩ := List.mem_map.mp listed
    exact (congrArg Prod.snd isEntry).symm
  have noOut : ∀ id fact, ¬laws.Out (analysis.start keys) id fact := by
    rintro id fact ⟨state, found, holds⟩
    rw [isBottom found] at holds
    exact laws.holds_bottom fact holds
  refine ⟨⟨fun found => isBottom found ▸ laws.good_bottom,
    fun found => isBottom found ▸ laws.good_bottom⟩, ⟨fun id => ?_, List.nodup_singleton _,
    fun id isOn => ?_⟩, Finset.mem_singleton_self _, fun id reached => ?_,
    fun id fact out => absurd out (noOut id fact), fun id fact out => absurd out (noOut id fact),
    fun id reached off => ?_⟩
  · simp [Analysis.start]
  · simpa [Analysis.start] using isOn
  · rw [Finset.mem_singleton.mp reached]
    exact ⟨_, .start⟩
  · rw [Finset.mem_singleton.mp reached] at off
    exact absurd List.mem_cons_self off

theorem Inv.mem_reachable (inv : laws.Inv solving) (done : solving.worklist = []) {path : List β}
    {id : β} (walk : EntryPath analysis.Edge analysis.entry path id) : id ∈ solving.reachable := by
  induction walk with
  | start => exact inv.entered
  | step earlier along ih =>
      exact (inv.settled _ ih (done ▸ List.not_mem_nil)).next _ along

theorem Inv.out_of_leaves (inv : laws.Inv solving) (done : solving.worklist = []) {id : β}
    {fact : φ} (leaves : laws.Leaves id fact) : laws.Out solving id fact := by
  have settled : ∀ {id}, id ∈ solving.reachable → laws.Settled solving id :=
    fun reached => inv.settled _ reached (done ▸ List.not_mem_nil)
  induction leaves with
  | gained reached gains =>
      obtain ⟨path, walk⟩ := reached
      exact (settled (inv.mem_reachable done walk)).out _ (Or.inl gains)
  | kept leaves along keeps ih =>
      have reached := (inv.ascending _ _ ih).1
      exact (settled ((settled reached).next _ along)).out _
        (Or.inr ⟨⟨_, along, ih⟩, keeps⟩)

/-- The loop ends. The nodes it reached are those with a path from the entry, and the state on the
way into each holds exactly the facts that some path brings there. -/
theorem solved [DecidableEq σ] (keys : List β) : ∃ enough, ∀ fuel, enough ≤ fuel →
    ∃ final, analysis.run fuel (analysis.start keys) = some final ∧
      (∀ id, id ∈ final.reachable ↔ Reachable analysis.Edge analysis.entry id) ∧
      ∀ id ∈ final.reachable, ∃ state, final.inState.get? id = some state ∧ laws.Good state ∧
        ∀ fact, laws.Holds state fact ↔ laws.Enters id fact := by
  have started : laws.Inv (analysis.start keys) := start_inv keys
  obtain ⟨enough, ends⟩ := started.run
  refine ⟨enough, fun fuel isEnough => ?_⟩
  obtain ⟨final, isFinal, inv, done⟩ := ends fuel isEnough
  refine ⟨final, isFinal, fun id => ⟨inv.reached id, ?_⟩, fun id reached => ?_⟩
  · rintro ⟨path, walk⟩
    exact inv.mem_reachable done walk
  · have settled := inv.settled id reached (done ▸ List.not_mem_nil)
    obtain ⟨state, found⟩ := settled.present
    refine ⟨state, found, inv.good.ins found, fun fact => ?_⟩
    have isIn : laws.In final id fact ↔ laws.Holds state fact := by
      simp [In, found]
    rw [← isIn, settled.ins]
    apply exists_congr
    intro pred
    apply and_congr_right
    intro along
    exact ⟨inv.sound pred fact, inv.out_of_leaves done⟩

end Ended

end GainsAndKeeps

end Rayzor.Library
