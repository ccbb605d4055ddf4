import Rayzor.Analysis.DominatorTree
import Rayzor.Passes.Identified
import Rayzor.Ssa.Checked

/-!
Contract: common subexpression elimination inside a block and global value
numbering along the dominator tree.

Owns: both passes, that the pairs they identify are justified, that after the
rewrite every operand is still defined before its use, and when the pairs hold
equal values.
-/

namespace Rayzor.Passes.ValueNumbering

open Ir Interp Library Ssa Analysis

/-! ### Tables -/

/-- Keys with the register that holds their value, the latest first. -/
abbrev Values := List (ValueKey × IrId)

def Values.get? (values : Values) (key : ValueKey) : Option IrId :=
  (values.find? fun entry => entry.1 = key).map Prod.snd

/-- Replace the result by what holds its value already, or enter it. -/
def number (key : Option ValueKey) (dest : Option IrId) (state : Values × OrdMap IrId IrId) :
    Values × OrdMap IrId IrId :=
  match key, dest with
  | some key, some dest =>
      match Values.get? state.1 key with
      | some existing => (state.1, state.2.insert dest existing)
      | none => ((key, dest) :: state.1, state.2)
  | _, _ => state

def resolve (replacements : OrdMap IrId IrId) (id : IrId) : IrId :=
  (replacements.get? id).getD id

/-! ### `CSEPass` -/

def instructionKey (inst : IrInstruction) : Option ValueKey := keyWith id inst

def isLoadGlobal : ValueKey → Bool
  | .loadGlobal _ => true
  | _ => false

/-- Drop the loads of globals an instruction may have changed. -/
def invalidate (available : Values) : IrInstruction → Values
  | .storeGlobal globalId _ => available.filter fun entry => entry.1 ≠ .loadGlobal globalId
  | .callDirect _ _ _ _ | .callIndirect _ _ _ _ =>
      available.filter fun entry => !isLoadGlobal entry.1
  | _ => available

def cseStep (state : Values × OrdMap IrId IrId) (inst : IrInstruction) :
    Values × OrdMap IrId IrId :=
  number (instructionKey inst) inst.dest (invalidate state.1 inst, state.2)

def cseReplacements (block : IrBasicBlock) : OrdMap IrId IrId :=
  (block.instructions.foldl cseStep ([], .empty)).2

def cseBlock (block : IrBasicBlock) : IrBasicBlock :=
  let replacements := cseReplacements block
  { block with
    instructions := block.instructions.map (·.replaceUses replacements)
    terminator := block.terminator.replaceUses replacements }

def cseFunction (function : IrFunction) : IrFunction :=
  { function with
    cfg := { function.cfg with blocks := function.cfg.blocks.mapValues fun _ => cseBlock } }

/-! ### `GVNPass` -/

/-- Create an expression key with replacements applied to the operands. -/
def makeKeyWithReplacements (replacements : OrdMap IrId IrId) (inst : IrInstruction) :
    Option ValueKey :=
  match inst with
  | .loadGlobal _ _ _ => none
  | inst => keyWith (resolve replacements) inst

def gvnStep (state : Values × OrdMap IrId IrId) (inst : IrInstruction) :
    Values × OrdMap IrId IrId :=
  number (makeKeyWithReplacements state.2 inst) inst.dest state

/-- Number a block that comes with the table of its dominator. -/
def gvnBlock (function : IrFunction) (id : IrBlockId) (state : Values × OrdMap IrId IrId) :
    Values × OrdMap IrId IrId :=
  match function.getBlock id with
  | some block => block.instructions.foldl gvnStep state
  | none => state

/-- Take blocks off the stack until it is empty. The children of a block are
pushed in order, each with a copy of its table, so the last is taken first. -/
def gvnWalk (function : IrFunction) (tree : DominatorTree) :
    Nat → List (IrBlockId × Values) → OrdMap IrId IrId → OrdMap IrId IrId
  | 0, _, replacements => replacements
  | _ + 1, [], replacements => replacements
  | fuel + 1, (id, values) :: stack, replacements =>
      let state := gvnBlock function id (values, replacements)
      gvnWalk function tree fuel
        ((tree.childrenAt id).reverse.map (fun child => (child, state.1)) ++ stack) state.2

def handlesExceptions (function : IrFunction) : Bool :=
  function.cfg.blocks.values.any fun block =>
    (block.instructions.any fun inst => match inst with
      | .throw _ => true
      | _ => false) ||
    match block.terminator with
    | .noReturn _ => true
    | _ => false

/-- Every block of the tree is taken once, so one step more than the tree has
edges empties the stack. -/
def gvnReplacements (function : IrFunction) : OrdMap IrId IrId :=
  if handlesExceptions function then .empty
  else
    let tree := DominatorTree.compute function
    gvnWalk function tree (tree.idom.entries.length + 1) [(function.cfg.entryBlock, [])] .empty

def replaceIncoming (replacements : OrdMap IrId IrId) (phi : IrPhiNode) : IrPhiNode :=
  { phi with incoming := phi.incoming.map fun entry => (entry.1, resolve replacements entry.2) }

def gvnFunction (function : IrFunction) : IrFunction :=
  let replacements := gvnReplacements function
  { function with
    cfg := { function.cfg with
      blocks := function.cfg.blocks.mapValues fun _ block =>
        { block with
          phiNodes := block.phiNodes.map (replaceIncoming replacements)
          instructions := block.instructions.map (·.replaceUses replacements)
          terminator := block.terminator.replaceUses replacements } } }

/-! ### Scanning a block -/

section Scan

variable {function : IrFunction} {log log' : List (IrId × IrId)} {place : Point}

/-- An entry of a table, usable at a place: its instruction comes before on
every path, and a global it loads has not changed since. -/
def Usable (function : IrFunction) (log : List (IrId × IrId)) (place : Point)
    (entry : ValueKey × IrId) : Prop :=
  ∃ name point inst, NamedBy log name ∧ Keyed function name entry.1 entry.2 point inst ∧
    Dominates function (point.1, point.2 + 1) place ∧
    ∀ globalId, entry.1 = .loadGlobal globalId →
      point.1 = place.1 ∧ point.2 < place.2 ∧
        Undisturbed function globalId place.1 point.2 place.2

/-- The state of a scan: the replacements are a justified log, and the table is
usable where the scan has got to. `done` are the blocks scanned before. -/
structure Numbered (function : IrFunction) (done : List IrBlockId) (place : Point)
    (state : Values × OrdMap IrId IrId) (log : List (IrId × IrId)) : Prop where
  justified : Justified function log
  replaced : ∀ later earlier, state.2.get? later = some earlier ↔ (later, earlier) ∈ log
  usable : ∀ entry ∈ state.1, Usable function log place entry
  seen : ∀ pair ∈ log, ∃ point, DefinesAt function pair.1 point ∧
    (point.1 ∈ done ∨ point.1 = place.1 ∧ point.2 ≤ place.2)

theorem NamedBy.mono {name : IrId → IrId} (named : NamedBy log name) (within : log ⊆ log') :
    NamedBy log' name := fun reg => (named reg).imp_right fun member => within member

theorem Usable.mono {entry : ValueKey × IrId} (usable : Usable function log place entry)
    (within : log ⊆ log') : Usable function log' place entry := by
  obtain ⟨name, point, inst, named, rest⟩ := usable
  exact ⟨name, point, inst, named.mono within, rest⟩

theorem Usable.advance {id : IrBlockId} {block : IrBasicBlock} {pc : Nat} {inst : IrInstruction}
    {entry : ValueKey × IrId} (usable : Usable function log (id, pc) entry)
    (found : function.getBlock id = some block) (here : block.instructions[pc]? = some inst)
    (kept : ∀ globalId, entry.1 = .loadGlobal globalId → clobbers globalId inst = false) :
    Usable function log (id, pc + 1) entry := by
  obtain ⟨name, point, earlier, named, keyed, dominates, stable⟩ := usable
  refine ⟨name, point, earlier, named, keyed, dominates.trans (dominates_next id pc), ?_⟩
  intro globalId isLoad
  obtain ⟨sameBlock, before, undisturbed⟩ := stable globalId isLoad
  refine ⟨sameBlock, Nat.lt_succ_of_lt before, ?_⟩
  intro other foundOther between inst' after below here'
  rcases Nat.lt_or_eq_of_le (Nat.le_of_lt_succ below) with inner | last
  · exact undisturbed other foundOther between inst' after inner here'
  · cases found.symm.trans foundOther
    subst last
    cases here.symm.trans here'
    exact kept globalId isLoad

theorem get?_mem {values : Values} {key : ValueKey} {existing : IrId}
    (hit : Values.get? values key = some existing) : (key, existing) ∈ values := by
  obtain ⟨⟨key', _⟩, listed, rfl⟩ := Option.map_eq_some_iff.mp hit
  have same := List.find?_some listed
  simp only [decide_eq_true_eq] at same
  subst same
  exact List.mem_of_find?_eq_some listed

/-- One instruction scanned: a hit extends the log, a miss the table. -/
theorem Numbered.step (ssa : SsaForm function) {done : List IrBlockId} {id : IrBlockId}
    {block : IrBasicBlock} {pc : Nat} {inst : IrInstruction} {values kept : Values}
    {replacements : OrdMap IrId IrId} (key : Option ValueKey)
    (numbered : Numbered function done (id, pc) (values, replacements) log)
    (fresh : id ∉ done) (found : function.getBlock id = some block)
    (here : block.instructions[pc]? = some inst)
    (valid : ∀ entry ∈ kept, entry ∈ values ∧
      ∀ globalId, entry.1 = .loadGlobal globalId → clobbers globalId inst = false)
    (keyed : ∀ found, key = some found → ∃ name, NamedBy log name ∧
      keyWith name inst = some found) :
    ∃ log', log ⊆ log' ∧
      Numbered function done (id, pc + 1) (number key inst.dest (kept, replacements)) log' := by
  have usable : ∀ entry ∈ kept, Usable function log (id, pc + 1) entry := by
    intro entry member
    obtain ⟨old, unclobbered⟩ := valid entry member
    exact (numbered.usable entry old).advance found here unclobbered
  have seen : ∀ pair ∈ log, ∃ point, DefinesAt function pair.1 point ∧
      (point.1 ∈ done ∨ point.1 = id ∧ point.2 ≤ pc + 1) := by
    intro pair member
    obtain ⟨point, defines, early⟩ := numbered.seen pair member
    exact ⟨point, defines, early.imp_right fun inside => ⟨inside.1, Nat.le_succ_of_le inside.2⟩⟩
  have unchanged : Numbered function done (id, pc + 1) (kept, replacements) log :=
    ⟨numbered.justified, numbered.replaced, usable, seen⟩
  cases isKey : key with
  | none => exact ⟨log, List.Subset.refl _, by simpa [number] using unchanged⟩
  | some valueKey =>
    obtain ⟨name, named, keyedInst⟩ := keyed valueKey isKey
    obtain ⟨dest, isDest, writes⟩ := writes_of_key keyedInst
    have defines : DefinesAt function dest (id, pc + 1) := .instruction found here writes
    rw [isDest]
    cases hit : Values.get? kept valueKey with
    | none =>
      refine ⟨log, List.Subset.refl _, ?_⟩
      simp only [number, hit]
      refine ⟨numbered.justified, numbered.replaced, ?_, seen⟩
      intro entry member
      rcases List.mem_cons.mp member with rfl | old
      · refine ⟨name, (id, pc), inst, named, ⟨⟨block, found, here⟩, writes, keyedInst⟩,
          Graph.Dominates.refl _, fun _ _ => ⟨rfl, Nat.lt_succ_self pc, ?_⟩⟩
        intro _ _ between _ after below _
        exact absurd after (Nat.not_lt.mpr (Nat.le_of_lt_succ below))
      · exact usable entry old
    | some existing =>
      have isNew : ∀ earlier, (dest, earlier) ∉ log := by
        intro earlier member
        obtain ⟨point, defines', early⟩ := numbered.seen _ member
        have same := ssa.single defines' defines
        subst same
        rcases early with inDone | ⟨-, below⟩
        · exact fresh inDone
        · exact absurd below (Nat.not_succ_le_self pc)
      obtain ⟨entryUsed, unclobbered⟩ := valid _ (get?_mem hit)
      obtain ⟨name', point', inst', named', keyed', dominates, stable⟩ :=
        numbered.usable _ entryUsed
      have within : log ⊆ (dest, existing) :: log := List.subset_cons_self _ _
      refine ⟨(dest, existing) :: log, within, ?_⟩
      simp only [number, hit]
      refine ⟨.cons ⟨(id, pc), point', inst, inst', ⟨⟨name, name', valueKey, named, named',
        ⟨⟨block, found, here⟩, writes, keyedInst⟩, keyed', stable⟩, dominates⟩⟩
        numbered.justified, ?_, fun entry member => (usable entry member).mono within, ?_⟩
      · intro later earlier
        rw [OrdMap.get?_insert, List.mem_cons, ← numbered.replaced, Prod.mk.injEq]
        split_ifs with same
        · subst same
          have absent : replacements.get? later ≠ some earlier := fun old =>
            isNew earlier ((numbered.replaced _ _).mp old)
          simp [absent, eq_comm]
        · simp [same]
      · intro pair member
        rcases List.mem_cons.mp member with rfl | old
        · exact ⟨(id, pc + 1), defines, Or.inr ⟨rfl, Nat.le_refl _⟩⟩
        · exact seen pair old

theorem scan_induction {State Log : Type} (Holds : Nat → State → Log → Prop)
    (Extends : Log → Log → Prop) (advance : State → IrInstruction → State)
    (instructions : List IrInstruction) (refl : ∀ log, Extends log log)
    (trans : ∀ {first second third}, Extends first second → Extends second third →
      Extends first third)
    (each : ∀ {pc inst state log}, instructions[pc]? = some inst → Holds pc state log →
      ∃ log', Extends log log' ∧ Holds (pc + 1) (advance state inst) log')
    {state : State} {log : Log} (start : Holds 0 state log) :
    ∃ log', Extends log log' ∧
      Holds instructions.length (instructions.foldl advance state) log' := by
  have along : ∀ count ≤ instructions.length, ∃ log', Extends log log' ∧
      Holds count ((instructions.take count).foldl advance state) log' := by
    intro count inside
    induction count with
    | zero => exact ⟨log, refl log, start⟩
    | succ count ih =>
        obtain ⟨middle, before, holds⟩ := ih (Nat.le_of_succ_le inside)
        obtain ⟨last, after, next⟩ := each (List.getElem?_eq_getElem inside) holds
        refine ⟨last, trans before after, ?_⟩
        rwa [List.take_add_one, List.getElem?_eq_getElem inside, List.foldl_append]
  obtain ⟨log', extended, holds⟩ := along instructions.length (Nat.le_refl _)
  rw [List.take_length] at holds
  exact ⟨log', extended, holds⟩

/-! ### CSE -/

theorem mem_invalidate {values : Values} {inst : IrInstruction} {entry : ValueKey × IrId}
    (member : entry ∈ invalidate values inst) :
    entry ∈ values ∧ ∀ globalId, entry.1 = .loadGlobal globalId → clobbers globalId inst = false := by
  cases inst
  case storeGlobal other value =>
    obtain ⟨old, different⟩ := List.mem_filter.mp member
    refine ⟨old, fun globalId isLoad => ?_⟩
    have apart : other ≠ globalId := by
      rintro rfl
      simp [isLoad] at different
    simpa [clobbers] using apart
  case callDirect | callIndirect =>
    obtain ⟨old, notLoad⟩ := List.mem_filter.mp member
    refine ⟨old, fun globalId isLoad => ?_⟩
    rw [isLoad] at notLoad
    simp [isLoadGlobal] at notLoad
  all_goals exact ⟨member, fun _ _ => rfl⟩

theorem cse_justified (ssa : SsaForm function) {id : IrBlockId} {block : IrBasicBlock}
    (found : function.getBlock id = some block) :
    ∃ log, Justified function log ∧ ∀ later earlier,
      (cseReplacements block).get? later = some earlier ↔ (later, earlier) ∈ log := by
  have start : Numbered function [] (id, 0) ([], .empty) [] :=
    ⟨.nil, by simp, by simp, by simp⟩
  obtain ⟨log, -, finished⟩ := scan_induction
    (fun pc state log => Numbered function [] (id, pc) state log) (fun log log' => log ⊆ log')
    cseStep block.instructions
    List.Subset.refl List.Subset.trans
    (fun here numbered => numbered.step ssa _ List.not_mem_nil found here
      (fun _ member => mem_invalidate member)
      (fun key isKey => ⟨fun reg => reg, fun _ => Or.inl rfl, isKey⟩)) start
  exact ⟨log, finished.justified, finished.replaced⟩

/-! ### GVN -/

theorem makeKey_cases {replacements : OrdMap IrId IrId} {inst : IrInstruction} {key : ValueKey}
    (isKey : makeKeyWithReplacements replacements inst = some key) :
    keyWith (resolve replacements) inst = some key ∧ isLoadGlobal key = false := by
  cases inst
  all_goals
    simp only [makeKeyWithReplacements] at isKey
    first
      | cases isKey
        done
      | (refine ⟨isKey, ?_⟩
         cases isKey
         rfl)

theorem namedBy_resolve {replacements : OrdMap IrId IrId}
    (replaced : ∀ later earlier, replacements.get? later = some earlier ↔ (later, earlier) ∈ log) :
    NamedBy log (resolve replacements) := by
  intro reg
  unfold resolve
  cases found : replacements.get? reg with
  | none => exact Or.inl rfl
  | some existing => exact Or.inr ((replaced reg existing).mp found)

def NoLoads (values : Values) : Prop := ∀ entry ∈ values, isLoadGlobal entry.1 = false

theorem NoLoads.number {values : Values} {replacements : OrdMap IrId IrId}
    {key : Option ValueKey} {dest : Option IrId} (noLoads : NoLoads values)
    (isNone : ∀ found, key = some found → isLoadGlobal found = false) :
    NoLoads (number key dest (values, replacements)).1 := by
  unfold ValueNumbering.number
  split
  · split
    · exact noLoads
    · intro entry member
      rcases List.mem_cons.mp member with rfl | old
      · exact isNone _ rfl
      · exact noLoads entry old
  · exact noLoads

theorem Usable.enter {id child : IrBlockId} {pc : Nat} {entry : ValueKey × IrId}
    (usable : Usable function log (id, pc) entry) (notLoad : isLoadGlobal entry.1 = false)
    (dominates : Dominates function (id, pc) (child, 0)) :
    Usable function log (child, 0) entry := by
  obtain ⟨name, point, inst, named, keyed, before, -⟩ := usable
  refine ⟨name, point, inst, named, keyed, before.trans dominates, fun globalId isLoad => ?_⟩
  rw [isLoad] at notLoad
  cases notLoad

/-- One block scanned, from a table usable at its start to one usable at every
block it immediately dominates. -/
theorem Numbered.gvnBlock (ssa : SsaForm function) {done : List IrBlockId} {id : IrBlockId}
    {state : Values × OrdMap IrId IrId} (numbered : Numbered function done (id, 0) state log)
    (noLoads : NoLoads state.1) (fresh : id ∉ done) :
    ∃ log' pc, log ⊆ log' ∧ NoLoads (gvnBlock function id state).1 ∧
      Numbered function done (id, pc) (gvnBlock function id state) log' ∧
      ∀ block, function.getBlock id = some block → pc ≤ block.instructions.length := by
  unfold ValueNumbering.gvnBlock
  cases found : function.getBlock id with
  | none => exact ⟨log, 0, List.Subset.refl _, noLoads, numbered, fun _ _ => Nat.zero_le _⟩
  | some block =>
      obtain ⟨log', within, finished, stillNoLoads⟩ := scan_induction
        (fun pc state log => Numbered function done (id, pc) state log ∧ NoLoads state.1)
        (fun log log' => log ⊆ log') gvnStep block.instructions
        List.Subset.refl List.Subset.trans (by
          rintro pc inst ⟨values, replacements⟩ log here ⟨numbered, noLoads⟩
          obtain ⟨log', within, next⟩ := numbered.step ssa (makeKeyWithReplacements replacements inst) fresh found here
            (fun entry member => ⟨member, fun globalId isLoad => by
              have notLoad := noLoads entry member
              rw [isLoad] at notLoad
              cases notLoad⟩)
            (fun key isKey => ⟨_, namedBy_resolve numbered.replaced, (makeKey_cases isKey).1⟩)
          exact ⟨log', within, next, noLoads.number fun _ isKey => (makeKey_cases isKey).2⟩)
        ⟨numbered, noLoads⟩
      refine ⟨log', block.instructions.length, within, stillNoLoads, finished, ?_⟩
      rintro other ⟨⟩
      exact Nat.le_refl _

/-- The state of the walk: blocks done, blocks waiting with a table usable on
entry to them, and every one of them put there by its immediate dominator. -/
structure Walking (function : IrFunction) (done : List IrBlockId)
    (stack : List (IrBlockId × Values)) (replacements : OrdMap IrId IrId)
    (log : List (IrId × IrId)) : Prop where
  justified : Justified function log
  replaced : ∀ later earlier, replacements.get? later = some earlier ↔ (later, earlier) ∈ log
  seen : ∀ pair ∈ log, ∃ point, DefinesAt function pair.1 point ∧ point.1 ∈ done
  waiting : ∀ item ∈ stack, NoLoads item.2 ∧ ∀ entry ∈ item.2, Usable function log (item.1, 0) entry
  distinct : (done ++ stack.map Prod.fst).Nodup
  parents : ∀ id ∈ done ++ stack.map Prod.fst, id = function.cfg.entryBlock ∨
    ∃ parent ∈ done, (DominatorTree.compute function).idom.get? id = some parent

theorem walking_start : Walking function [] [(function.cfg.entryBlock, [])] .empty [] :=
  ⟨.nil, by simp, by simp, by simp [NoLoads], by simp, by simp⟩

theorem Walking.next (ssa : SsaForm function) (consistent : PredecessorsConsistent function)
    {done : List IrBlockId} {id : IrBlockId} {values : Values}
    {stack : List (IrBlockId × Values)} {replacements : OrdMap IrId IrId}
    (walking : Walking function done ((id, values) :: stack) replacements log) :
    ∃ log', Walking function (id :: done)
      (((DominatorTree.compute function).childrenAt id).reverse.map (fun child =>
        (child, (gvnBlock function id (values, replacements)).1)) ++ stack)
      (gvnBlock function id (values, replacements)).2 log' := by
  have distinct := walking.distinct
  rw [List.map_cons, List.nodup_append] at distinct
  obtain ⟨doneNodup, stackNodup, apart⟩ := distinct
  have fresh : id ∉ done := fun inDone => apart id inDone id List.mem_cons_self rfl
  obtain ⟨noLoads, usable⟩ := walking.waiting _ List.mem_cons_self
  have numbered : Numbered function done (id, 0) (values, replacements) log := by
    refine ⟨walking.justified, walking.replaced, usable, fun pair member => ?_⟩
    obtain ⟨point, defines, inDone⟩ := walking.seen pair member
    exact ⟨point, defines, Or.inl inDone⟩
  obtain ⟨log', pc, within, stillNoLoads, finished, inside⟩ :=
    numbered.gvnBlock ssa noLoads fresh
  have newChild : ∀ child ∈ (DominatorTree.compute function).childrenAt id,
      child ∉ id :: (done ++ stack.map Prod.fst) := by
    intro child isChild old
    have ofId := DominatorTree.mem_childrenAt isChild
    have inOld : child ∈ done ++ ((id, values) :: stack).map Prod.fst := by
      simp only [List.map_cons, List.mem_append, List.mem_cons] at old ⊢
      tauto
    rcases walking.parents child inOld with rfl | ⟨parent, inDone, ofParent⟩
    · rw [DominatorTree.idom_entry] at ofId
      cases ofId
    · cases ofId.symm.trans ofParent
      exact fresh inDone
  refine ⟨log', finished.justified, finished.replaced, ?_, ?_, ?_, ?_⟩
  · intro pair member
    obtain ⟨point, defines, early⟩ := finished.seen pair member
    refine ⟨point, defines, ?_⟩
    rcases early with inDone | ⟨here, -⟩
    · exact List.mem_cons_of_mem _ inDone
    · rw [here]
      exact List.mem_cons_self
  · intro item member
    rcases List.mem_append.mp member with isChild | waiting
    · obtain ⟨child, listed, rfl⟩ := List.mem_map.mp isChild
      obtain ⟨different, dominates⟩ := DominatorTree.idom_spec consistent
        (DominatorTree.mem_childrenAt (List.mem_reverse.mp listed))
      exact ⟨stillNoLoads, fun entry held => (finished.usable entry held).enter
        (stillNoLoads entry held) (dominates_of_blocks dominates different inside)⟩
    · obtain ⟨itemNoLoads, itemUsable⟩ := walking.waiting item (List.mem_cons_of_mem _ waiting)
      exact ⟨itemNoLoads, fun entry held => (itemUsable entry held).mono within⟩
  · have children := DominatorTree.childrenAt_nodup function id
    have old : (id :: (done ++ stack.map Prod.fst)).Nodup := by
      refine List.nodup_middle.mp ?_
      exact walking.distinct
    rw [List.map_append, List.map_map]
    simp only [Function.comp_def, List.map_id']
    have shuffled : (((DominatorTree.compute function).childrenAt id).reverse ++
        (id :: (done ++ stack.map Prod.fst))).Nodup := by
      refine List.nodup_append.mpr ⟨List.nodup_reverse.mpr children, old, ?_⟩
      rintro child isChild other isOld rfl
      exact newChild child (List.mem_reverse.mp isChild) isOld
    refine (List.Perm.nodup_iff ?_).mp shuffled
    rw [← List.append_assoc, ← List.cons_append, ← List.append_assoc]
    exact List.perm_append_comm.append_right _
  · intro other member
    rw [List.map_append, List.map_map] at member
    simp only [Function.comp_def, List.map_id', List.mem_append, List.mem_cons,
      List.mem_reverse] at member
    have old : other ∈ done ++ ((id, values) :: stack).map Prod.fst →
        other = function.cfg.entryBlock ∨ ∃ parent ∈ id :: done,
          (DominatorTree.compute function).idom.get? other = some parent := by
      intro listed
      rcases walking.parents other listed with isEntry | ⟨parent, inDone, ofParent⟩
      · exact Or.inl isEntry
      · exact Or.inr ⟨parent, List.mem_cons_of_mem _ inDone, ofParent⟩
    rw [List.map_cons, List.mem_append, List.mem_cons] at old
    rcases member with (isId | inDone) | (isChild | inStack)
    · exact old (Or.inr (Or.inl isId))
    · exact old (Or.inl inDone)
    · exact Or.inr ⟨id, List.mem_cons_self, DominatorTree.mem_childrenAt isChild⟩
    · exact old (Or.inr (Or.inr inStack))

theorem gvnWalk_justified (ssa : SsaForm function) (consistent : PredecessorsConsistent function)
    {fuel : Nat} {done : List IrBlockId} {stack : List (IrBlockId × Values)}
    {replacements : OrdMap IrId IrId} (walking : Walking function done stack replacements log) :
    ∃ log', Justified function log' ∧ ∀ later earlier,
      (gvnWalk function (DominatorTree.compute function) fuel stack replacements).get? later =
        some earlier ↔ (later, earlier) ∈ log' := by
  induction fuel generalizing done stack replacements log with
  | zero => exact ⟨log, walking.justified, walking.replaced⟩
  | succ fuel ih =>
      cases stack with
      | nil => exact ⟨log, walking.justified, walking.replaced⟩
      | cons item stack =>
          obtain ⟨log', next⟩ := walking.next ssa consistent
          exact ih next

theorem gvn_justified (ssa : SsaForm function) (consistent : PredecessorsConsistent function) :
    ∃ log, Justified function log ∧ ∀ later earlier,
      (gvnReplacements function).get? later = some earlier ↔ (later, earlier) ∈ log := by
  unfold gvnReplacements
  split_ifs
  · exact ⟨[], .nil, by simp⟩
  · exact gvnWalk_justified ssa consistent walking_start

end Scan

/-! ### Every operand is still defined before its use -/

section Rewrite

/-- The second function is the first with operands renamed, block by block, and
incoming values of phis renamed throughout. -/
structure Rewritten (function function' : IrFunction) (phiName : IrId → IrId)
    (name : IrBasicBlock → IrId → IrId) : Prop where
  signature : function'.signature = function.signature
  entry : function'.cfg.entryBlock = function.cfg.entryBlock
  blocks : ∀ id, function'.getBlock id = (function.getBlock id).map fun block =>
    { block with
      phiNodes := block.phiNodes.map fun phi =>
        { phi with incoming := phi.incoming.map fun entry => (entry.1, phiName entry.2) }
      instructions := block.instructions.map (·.renameUses (name block))
      terminator := block.terminator.renameUses (name block) }

variable {function function' : IrFunction} {phiName : IrId → IrId}
  {name : IrBasicBlock → IrId → IrId}

theorem Rewritten.edge (rewritten : Rewritten function function' phiName name) :
    Edge function' = Edge function := by
  funext point next
  refine propext ⟨?_, ?_⟩
  · rintro (⟨found, inside⟩ | ⟨found, done, successor⟩)
    all_goals
      rw [rewritten.blocks] at found
      obtain ⟨block, old, rfl⟩ := Option.map_eq_some_iff.mp found
    · exact .within old (by simpa using inside)
    · exact .across old (by simpa using done) (by simpa [IrBasicBlock.successors] using successor)
  · rintro (⟨found, inside⟩ | ⟨found, done, successor⟩)
    all_goals
      have found' := (rewritten.blocks _).trans (congrArg _ found)
    · exact .within found' (by simpa using inside)
    · exact .across found' (by simpa using done)
        (by simpa [IrBasicBlock.successors] using successor)

theorem Rewritten.defines (rewritten : Rewritten function function' phiName name) :
    DefinesAt function' = DefinesAt function := by
  funext reg point
  have samePoint : entryPoint function' = entryPoint function := by
    rw [entryPoint, entryPoint, rewritten.entry]
  refine propext ⟨?_, ?_⟩
  · rintro (member | ⟨found, member⟩ | ⟨found, here, writes⟩)
    · rw [samePoint]
      exact .parameter (rewritten.signature ▸ member)
    all_goals
      rw [rewritten.blocks] at found
      obtain ⟨block, old, rfl⟩ := Option.map_eq_some_iff.mp found
    · exact .phi old (by simpa [Function.comp_def] using member)
    · rw [List.getElem?_map] at here
      obtain ⟨inst, oldHere, rfl⟩ := Option.map_eq_some_iff.mp here
      exact .instruction old oldHere (by rwa [IrInstruction.writes_renameUses] at writes)
  · rintro (member | ⟨found, member⟩ | ⟨found, here, writes⟩)
    · rw [← samePoint]
      exact .parameter (rewritten.signature ▸ member)
    all_goals
      have found' := (rewritten.blocks _).trans (congrArg _ found)
    · exact .phi found' (by simpa [Function.comp_def] using member)
    · exact .instruction found' (List.getElem?_map.trans (congrArg _ here))
        ((IrInstruction.writes_renameUses _ _).trans writes)

theorem Rewritten.available (rewritten : Rewritten function function' phiName name) :
    Available function' = Available function := by
  funext reg point
  unfold Available
  rw [rewritten.edge, rewritten.defines, entryPoint, entryPoint, rewritten.entry]

/-- Renaming operands to registers available wherever they are keeps SSA's
order of definitions and uses. -/
theorem Rewritten.definedBeforeUse (rewritten : Rewritten function function' phiName name)
    (ordered : DefinedBeforeUse function)
    (phiNamed : ∀ {reg place}, Available function reg place →
      Available function (phiName reg) place)
    (named : ∀ {id block}, function.getBlock id = some block → ∀ {reg place},
      Available function reg place → Available function (name block reg) place) :
    DefinedBeforeUse function' := by
  constructor
  · intro id block pc inst found here reg used
    rw [rewritten.available]
    rw [rewritten.blocks] at found
    obtain ⟨old, oldFound, rfl⟩ := Option.map_eq_some_iff.mp found
    rw [List.getElem?_map] at here
    obtain ⟨oldInst, oldHere, rfl⟩ := Option.map_eq_some_iff.mp here
    cases kept : oldInst.operandsKept with
    | true =>
        rw [IrInstruction.uses_renameUses_of_kept _ _ kept] at used
        exact ordered.operands oldFound oldHere reg used
    | false =>
        rw [IrInstruction.uses_renameUses _ _ kept] at used
        obtain ⟨oldReg, oldUsed, rfl⟩ := List.mem_map.mp used
        exact named oldFound (ordered.operands oldFound oldHere oldReg oldUsed)
  · intro id block found reg read
    rw [rewritten.available]
    rw [rewritten.blocks] at found
    obtain ⟨old, oldFound, rfl⟩ := Option.map_eq_some_iff.mp found
    rw [IrTerminator.reads_renameUses] at read
    obtain ⟨oldReg, oldRead, rfl⟩ := List.mem_map.mp read
    rw [List.length_map]
    exact named oldFound (ordered.terminator oldFound oldReg oldRead)
  · intro id block source sourceBlock phi reg found member incoming foundSource
    rw [rewritten.available]
    rw [rewritten.blocks] at found foundSource
    obtain ⟨old, oldFound, rfl⟩ := Option.map_eq_some_iff.mp found
    obtain ⟨oldSource, oldFoundSource, rfl⟩ := Option.map_eq_some_iff.mp foundSource
    obtain ⟨oldPhi, oldMember, rfl⟩ := List.mem_map.mp member
    obtain ⟨⟨_, oldReg⟩, oldIncoming, same⟩ := List.mem_map.mp incoming
    cases same
    rw [List.length_map]
    exact phiNamed (ordered.phis oldFound oldMember oldIncoming oldFoundSource)

end Rewrite

section Result

variable {function : IrFunction}

theorem available_resolve (ssa : SsaForm function) {log : List (IrId × IrId)}
    (justified : Justified function log) {replacements : OrdMap IrId IrId}
    (replaced : ∀ later earlier, replacements.get? later = some earlier ↔ (later, earlier) ∈ log)
    {reg : IrId} {place : Point} (available : Available function reg place) :
    Available function (resolve replacements reg) place := by
  rcases namedBy_resolve replaced reg with same | member
  · rwa [same]
  · exact justified.available ssa member available

theorem gvnFunction_rewritten : Rewritten function (gvnFunction function)
    (resolve (gvnReplacements function)) (fun _ => resolve (gvnReplacements function)) where
  signature := rfl
  entry := rfl
  blocks id := OrdMap.get?_mapValues _ _ id

theorem cseFunction_rewritten : Rewritten function (cseFunction function) (fun reg => reg)
    (fun block => resolve (cseReplacements block)) where
  signature := rfl
  entry := rfl
  blocks id := by
    refine (OrdMap.get?_mapValues _ _ id).trans ?_
    refine congrArg (Option.map · _) (funext fun block => ?_)
    have phis : (block.phiNodes.map fun phi =>
        { phi with incoming := phi.incoming.map fun entry => (entry.1, entry.2) }) =
        block.phiNodes := by simp
    rw [phis]
    rfl

theorem gvnFunction_definedBeforeUse (ssa : SsaForm function)
    (consistent : PredecessorsConsistent function) : DefinedBeforeUse (gvnFunction function) := by
  obtain ⟨log, justified, replaced⟩ := gvn_justified ssa consistent
  exact gvnFunction_rewritten.definedBeforeUse ssa.toDefinedBeforeUse
    (available_resolve ssa justified replaced) (fun _ => available_resolve ssa justified replaced)

theorem cseFunction_definedBeforeUse (ssa : SsaForm function) :
    DefinedBeforeUse (cseFunction function) := by
  refine cseFunction_rewritten.definedBeforeUse ssa.toDefinedBeforeUse id fun found => ?_
  obtain ⟨log, justified, replaced⟩ := cse_justified ssa found
  exact available_resolve ssa justified replaced

/-- A pair of registers one of the two passes takes for equal. -/
inductive IdentifiedBy (function : IrFunction) (later earlier : IrId) : Prop where
  | gvn (replaced : (gvnReplacements function).get? later = some earlier)
  | cse {id : IrBlockId} {block : IrBasicBlock} (found : function.getBlock id = some block)
      (replaced : (cseReplacements block).get? later = some earlier)

/-- Identified registers hold equal values in every run that has defined the
later one, and the rewritten functions define every register before its use. -/
structure Sound {E : Type} (module : IrModule) (host : Host E) (function : IrFunction) :
    Prop where
  equal : ∀ {later earlier}, IdentifiedBy function later earlier →
    HoldEqual module host function later earlier
  gvnOrdered : DefinedBeforeUse (gvnFunction function)
  cseOrdered : DefinedBeforeUse (cseFunction function)

end Result

/-! ### Two casts, from one type and from two -/

/-- `-1` widened to 64 bits twice, the second time from `fromTy`. -/
def widenedTwice (fromTy : IrType) : IrFunction where
  name := "widened"
  signature :=
    { parameters := [], returnType := .i64, callingConvention := .haxe, typeParams := [],
      usesSret := false }
  cfg :=
    { blocks := OrdMap.ofList [(0,
        { instructions := [.const 0 (.i32 (-1)), .cast 1 0 .i32 .i64, .cast 2 0 fromTy .i64],
          terminator := .ret (some 2) })],
      entryBlock := 0, nextBlockId := 1 }
  locals := .empty
  registerTypes := OrdMap.ofList [(0, .i32), (1, .i64), (2, .i64)]
  externalLinkage := false
  nextRegId := 3
  typeParamTagFixups := []
  typeParamMetadataFixups := []

theorem widenedTwice_ssaForm (fromTy : IrType) : SsaForm (widenedTwice fromTy) := by
  have checked : Checked (widenedTwice fromTy) fun _ => [] := of_decide_eq_true rfl
  exact checked.ssaForm

theorem widenedTwice_consistent (fromTy : IrType) : PredecessorsConsistent (widenedTwice fromTy) :=
  predecessorsConsistent_of_checked rfl

/-- The block of the function and what stands in it. -/
theorem widenedTwice_instruction {fromTy : IrType} {id : IrBlockId} {block : IrBasicBlock}
    {pc : Nat} {inst : IrInstruction} (found : (widenedTwice fromTy).getBlock id = some block)
    (here : block.instructions[pc]? = some inst) :
    inst ∈ [.const 0 (.i32 (-1)), .cast 1 0 .i32 .i64, .cast 2 0 fromTy .i64] := by
  have member := getBlock_eq_some_iff.mp found
  have only : (widenedTwice fromTy).cfg.blocks.entries = [(0,
      { instructions := [.const 0 (.i32 (-1)), .cast 1 0 .i32 .i64, .cast 2 0 fromTy .i64],
        terminator := .ret (some 2) })] := rfl
  rw [only, List.mem_singleton, Prod.mk.injEq] at member
  obtain ⟨rfl, rfl⟩ := member
  exact List.mem_of_getElem? here

end Rayzor.Passes.ValueNumbering
