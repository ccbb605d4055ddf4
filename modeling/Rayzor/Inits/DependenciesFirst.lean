import Rayzor.Inits.OrderedInits
import Rayzor.Library.Acyclic

/-!
Contract: initialisers run after what they read.

Owns: what it is for an initialiser to reach a file, that the walk collects exactly the files
reached, and that the order has every initialiser once, after those it depends on unless files
depend on each other in a cycle.

Does not own: code that runs later through closures, which the walk does not follow.
-/

namespace Rayzor.Inits

open Ir
open Library (OrdMap Acyclic discoverWith Discovery.Discovered)
open Library.Worklist (Follows)
open Relation (ReflTransGen TransGen)

namespace MergedModule

variable {module : MergedModule}

def Runs (module : MergedModule) (id : IrFunctionId) (instr : IrInstruction) : Prop :=
  ∃ function block, module.functions.get? id = some function ∧
    block ∈ function.cfg.blocks.values ∧ instr ∈ block.instructions

/-- One function calls another directly, and the other comes from a source file. -/
def Calls (module : MergedModule) (caller callee : IrFunctionId) : Prop :=
  (∃ dest args typeArgs, module.Runs caller (.callDirect dest callee args typeArgs)) ∧
    ∃ function, module.functions.get? callee = some function ∧ function.kind = .userDefined

def Touches (module : MergedModule) (id : IrFunctionId) (file : Nat) : Prop :=
  (∃ callee, module.Calls id callee ∧ fileOf callee = file) ∨
    (∃ dest globalId ty, module.Runs id (.loadGlobal dest globalId ty) ∧
      fileOf globalId = file) ∨
    ∃ globalId value, module.Runs id (.storeGlobal globalId value) ∧ fileOf globalId = file

def Reaches (module : MergedModule) (init : IrFunctionId) (file : Nat) : Prop :=
  ∃ id, ReflTransGen module.Calls init id ∧ module.Touches id file

def IsNamed (module : MergedModule) (name : String) (id : IrFunctionId) : Prop :=
  ∃ function, module.functions.get? id = some function ∧ function.name = name

def FileReaches (module : MergedModule) (file other : Nat) : Prop :=
  file ≠ other ∧ (∃ init, module.IsNamed "__init__" init ∧ fileOf init = file ∧
    module.Reaches init other) ∧ ∃ init, module.IsNamed "__init__" init ∧ fileOf init = other

theorem mem_named {name : String} {id : IrFunctionId} :
    id ∈ module.named name ↔ module.IsNamed name id := by
  simp only [named, List.mem_map, List.mem_filter, OrdMap.mem_values_iff, decide_eq_true_eq]
  constructor
  · rintro ⟨function, ⟨⟨key, found⟩, isNamed⟩, same⟩
    have keyed := module.keyed key function found
    exact ⟨function, (keyed.symm.trans same) ▸ found, isNamed⟩
  · rintro ⟨function, found, isNamed⟩
    exact ⟨function, ⟨⟨id, found⟩, isNamed⟩, module.keyed id function found⟩

theorem nodup_named (name : String) : (module.named name).Nodup := by
  have keys : module.functions.values.map (·.id) = module.functions.keys := by
    unfold OrdMap.values OrdMap.keys
    rw [List.map_map]
    apply List.map_congr_left
    intro entry member
    exact module.keyed _ _ ((OrdMap.mem_entries_iff _ _ _).mp member)
  have distinct := module.functions.keys_nodup
  rw [← keys] at distinct
  exact distinct.sublist (List.filter_sublist.map _)

theorem mem_instructionsOf {id : IrFunctionId} {instr : IrInstruction} :
    instr ∈ module.instructionsOf id ↔ module.Runs id instr := by
  unfold instructionsOf Runs
  split
  next missing => simp [missing]
  next function found =>
    simp only [MergedFunction.instructions, List.mem_flatMap, found, Option.some.injEq]
    constructor
    · rintro ⟨block, isBlock, member⟩
      exact ⟨function, block, rfl, isBlock, member⟩
    · rintro ⟨_, block, rfl, isBlock, member⟩
      exact ⟨block, isBlock, member⟩

theorem isUserDefined_iff {id : IrFunctionId} :
    module.isUserDefined id = true ↔
      ∃ function, module.functions.get? id = some function ∧ function.kind = .userDefined := by
  simp [isUserDefined, Option.any_eq_true]

theorem mem_callees {caller callee : IrFunctionId} :
    callee ∈ module.callees caller ↔ module.Calls caller callee := by
  simp only [callees, List.mem_filterMap, mem_instructionsOf, Calls, ← isUserDefined_iff]
  constructor
  · rintro ⟨instr, runs, called⟩
    unfold calledBy at called
    split at called
    next dest funcId args typeArgs =>
      split_ifs at called with isUser
      cases called
      exact ⟨⟨dest, args, typeArgs, runs⟩, isUser⟩
    next => cases called
  · rintro ⟨⟨dest, args, typeArgs, runs⟩, isUser⟩
    exact ⟨_, runs, if_pos isUser⟩

theorem mem_filesTouched {id : IrFunctionId} {file : Nat} :
    file ∈ (module.instructionsOf id).filterMap module.fileReachedBy ↔
      module.Touches id file := by
  simp only [List.mem_filterMap, mem_instructionsOf, Touches]
  constructor
  · rintro ⟨instr, runs, reached⟩
    unfold fileReachedBy at reached
    split at reached
    next dest funcId args typeArgs =>
      split_ifs at reached with isUser
      cases reached
      exact Or.inl ⟨funcId, ⟨⟨dest, args, typeArgs, runs⟩, isUserDefined_iff.mp isUser⟩, rfl⟩
    next dest globalId ty =>
      cases reached
      exact Or.inr (Or.inl ⟨dest, globalId, ty, runs, rfl⟩)
    next globalId value =>
      cases reached
      exact Or.inr (Or.inr ⟨globalId, value, runs, rfl⟩)
    next => cases reached
  · rintro (⟨callee, ⟨⟨dest, args, typeArgs, runs⟩, isUser⟩, rfl⟩ |
      ⟨dest, globalId, ty, runs, rfl⟩ | ⟨globalId, value, runs, rfl⟩)
    · exact ⟨_, runs, if_pos (isUserDefined_iff.mpr isUser)⟩
    · exact ⟨_, runs, rfl⟩
    · exact ⟨_, runs, rfl⟩

theorem mem_foldl_collect {ids : List IrFunctionId} {reached : Finset Nat} {file : Nat} :
    file ∈ ids.foldl module.collect reached ↔
      file ∈ reached ∨ ∃ id ∈ ids, module.Touches id file := by
  induction ids generalizing reached with
  | nil => simp
  | cons id rest ih =>
      rw [List.foldl_cons, ih]
      simp only [collect, Finset.mem_union, List.mem_toFinset, mem_filesTouched, List.mem_cons,
        exists_eq_or_imp, or_assoc]

theorem reachedFiles_spec (module : MergedModule) (init : IrFunctionId) :
    ∃ reached, module.reachedFiles init = some reached ∧
      ∀ file, file ∈ reached ↔ module.Reaches init file := by
  have merges : Library.Discovery.Merges
      fun (fresh stack : List IrFunctionId) => fresh.reverse ++ stack :=
    fun fresh stack => (List.reverse_perm fresh).append_right stack
  have listed : ∀ id, module.callees id ⊆ module.functions.keys := by
    intro id callee member
    obtain ⟨-, function, found, -⟩ := mem_callees.mp member
    exact (OrdMap.mem_keys_iff _ _).mpr ⟨function, found⟩
  have enough : [init].length + module.functions.keys.length ≤
      module.functions.keys.length + 1 := by
    rw [List.length_singleton, Nat.add_comm]
  obtain ⟨final, taken, returned, found⟩ := Library.Discovery.discovered
    module.functions.keys_nodup merges listed (List.Subset.refl [init]) module.collect ∅ enough
  have follows : Follows module.callees = module.Calls := by
    funext caller callee
    exact propext mem_callees
  refine ⟨final.2, by rw [reachedFiles, returned]; rfl, fun file => ?_⟩
  rw [found.effect, mem_foldl_collect]
  simp only [Finset.notMem_empty, false_or, List.mem_reverse, found.takes, List.mem_singleton,
    exists_eq_left, follows]
  rfl

end MergedModule

variable {deps : OrdMap IrFunctionId (Finset Nat)} {remaining : List IrFunctionId}
  {done : List Nat}

/-- No initialiser that is left belongs to a file the given one depends on. -/
def Clear (deps : OrdMap IrFunctionId (Finset Nat)) (remaining : List IrFunctionId)
    (id : IrFunctionId) : Prop :=
  ∀ file ∈ (deps.get? id).getD ∅, ∀ other ∈ remaining, fileOf other ≠ file

/-- What is done has no initialiser left. -/
def Settled (remaining : List IrFunctionId) (done : List Nat) : Prop :=
  ∀ file ∈ done, ∀ other ∈ remaining, fileOf other ≠ file

theorem ready_iff (settled : Settled remaining done) {id : IrFunctionId} :
    ready deps remaining done id = true ↔ Clear deps remaining id := by
  unfold ready Clear
  rw [decide_eq_true_eq]
  constructor
  · intro isReady file depends
    exact (isReady file depends).elim (settled file) fun clear => clear
  · intro clear file depends
    exact Or.inr (clear file depends)

theorem pick_spec (deps : OrdMap IrFunctionId (Finset Nat)) (settled : Settled remaining done)
    (some : remaining ≠ []) :
    ∃ id, remaining[(remaining.findIdx? (ready deps remaining done)).getD 0]? = Option.some id ∧
      ((∃ other ∈ remaining, Clear deps remaining other) → Clear deps remaining id) := by
  cases found : remaining.findIdx? (ready deps remaining done) with
  | none =>
      obtain ⟨head, tail, rfl⟩ := List.exists_cons_of_ne_nil some
      refine ⟨head, rfl, ?_⟩
      rintro ⟨other, member, clear⟩
      have notReady := List.findIdx?_eq_none_iff.mp found other member
      rw [(ready_iff settled).mpr clear] at notReady
      cases notReady
  | some pick =>
      obtain ⟨inside, isReady, -⟩ := List.findIdx?_eq_some_iff_getElem.mp found
      exact ⟨remaining[pick], List.getElem?_eq_getElem inside, fun _ => (ready_iff settled).mp isReady⟩

theorem Settled.remove (settled : Settled remaining done) (pick : Nat) (id : IrFunctionId) :
    Settled (remaining.eraseIdx pick)
      (if (remaining.eraseIdx pick).any (fileOf · = fileOf id) then done
        else fileOf id :: done) := by
  have kept : Settled (remaining.eraseIdx pick) done := fun file isDone other member =>
    settled file isDone other (List.mem_of_mem_eraseIdx member)
  split_ifs with more
  · exact kept
  · intro file isDone other member
    cases List.mem_cons.mp isDone with
    | inl same =>
        intro fileSame
        exact more (List.any_eq_true.mpr ⟨other, member, by simpa [same] using fileSame⟩)
    | inr before => exact kept file before other member

/-- Every initialiser is taken once. If at every point one is ready, each is taken when no
initialiser is left of the files it depends on. -/
theorem drain_spec (deps : OrdMap IrFunctionId (Finset Nat)) {count : Nat}
    (enough : remaining.length ≤ count) (settled : Settled remaining done) :
    ∃ order, drain deps count remaining done = some order ∧ order.Perm remaining ∧
      ((∀ left ⊆ remaining, left ≠ [] → ∃ id ∈ left, Clear deps left id) →
        ∀ before id after, order = before ++ id :: after → Clear deps after id) := by
  induction count generalizing remaining done with
  | zero =>
      have empty : remaining = [] := List.length_eq_zero_iff.mp (by omega)
      subst empty
      refine ⟨[], rfl, .refl _, ?_⟩
      intro _ before id after split
      simp at split
  | succ count ih =>
      cases shape : remaining with
      | nil =>
          refine ⟨[], rfl, .refl _, ?_⟩
          intro _ before id after split
          simp at split
      | cons head tail =>
          rw [← shape]
          have some : remaining ≠ [] := by simp [shape]
          obtain ⟨id, taken, isClear⟩ := pick_spec deps settled some
          generalize picked : (remaining.findIdx? (ready deps remaining done)).getD 0 = pick
            at taken
          obtain ⟨inside, atPick⟩ := List.getElem?_eq_some_iff.mp taken
          have fewer : (remaining.eraseIdx pick).length ≤ count := by
            rw [List.length_eraseIdx_of_lt inside]
            omega
          obtain ⟨later, drained, perm, inOrder⟩ :=
            ih fewer (settled.remove pick id)
          have removed : (id :: remaining.eraseIdx pick).Perm remaining := by
            rw [← atPick]
            exact List.getElem_cons_eraseIdx_perm inside
          refine ⟨id :: later, ?_, (perm.cons id).trans removed, ?_⟩
          · subst shape
            rw [drain]
            simp only [picked, taken, drained, Option.bind_eq_bind, Option.bind_some]
            rfl
          · intro alwaysOne before other after split
            have within : remaining.eraseIdx pick ⊆ remaining :=
              (List.eraseIdx_sublist _ _).subset
            cases before with
            | nil =>
                rw [List.nil_append, List.cons.injEq] at split
                have clear := isClear (alwaysOne remaining (List.Subset.refl _) some)
                rw [← split.1, ← split.2]
                intro file depends other' member
                exact clear file depends other' (within (perm.subset member))
            | cons first before =>
                rw [List.cons_append, List.cons.injEq] at split
                exact inOrder (fun left inside => alwaysOne left (List.Subset.trans inside within))
                  before other after split.2

namespace MergedModule

variable {module : MergedModule} {inits : List IrFunctionId}

/-- What the order knows of each initialiser: the other files with initialisers it reaches. -/
structure Depends (module : MergedModule) (inits : List IrFunctionId)
    (deps : OrdMap IrFunctionId (Finset Nat)) : Prop where
  known : ∀ init ∈ inits, ∀ file, file ∈ (deps.get? init).getD ∅ ↔
    module.Reaches init file ∧ file ≠ fileOf init ∧ file ∈ inits.map fileOf

theorem dependencies_spec (module : MergedModule) (distinct : inits.Nodup) :
    ∃ deps, inits.mapM (module.dependencies inits) = some deps ∧
      Depends module inits (OrdMap.ofList deps) := by
  choose reached returned isReached using module.reachedFiles_spec
  let other : IrFunctionId → Finset Nat := fun init =>
    (reached init).filter fun file => file ≠ fileOf init ∧ file ∈ inits.map fileOf
  have each : module.dependencies inits = fun init => pure (init, other init) := by
    funext init
    rw [dependencies, returned]
    rfl
  refine ⟨inits.map fun init => (init, other init), ?_, ⟨fun init member file => ?_⟩⟩
  · rw [each, List.mapM_pure]
    rfl
  · have keys : ((inits.map fun init => (init, other init)).map Prod.fst).Nodup := by
      rw [List.map_map]
      exact (List.map_id inits).symm ▸ distinct
    have found := (OrdMap.get?_ofList keys).mpr
      (List.mem_map_of_mem (f := fun init => (init, other init)) member)
    rw [found, Option.getD_some, Finset.mem_filter, isReached]

theorem Depends.ready {deps : OrdMap IrFunctionId (Finset Nat)}
    (depends : Depends module (module.named "__init__") deps)
    (acyclic : Acyclic module.FileReaches) {left : List IrFunctionId}
    (within : left ⊆ module.named "__init__") (some : left ≠ []) :
    ∃ id ∈ left, Clear deps left id := by
  have someFile : left.map fileOf ≠ [] := by simpa using some
  obtain ⟨file, isFile, isLast⟩ := acyclic.exists_last someFile
  obtain ⟨id, member, rfl⟩ := List.mem_map.mp isFile
  refine ⟨id, member, fun next dependsOn other isLeft same => ?_⟩
  obtain ⟨reaches, different, -⟩ := (depends.known id (within member) next).mp dependsOn
  apply isLast next (same ▸ List.mem_map_of_mem isLeft)
  exact ⟨different.symm, ⟨id, mem_named.mp (within member), rfl, reaches⟩,
    ⟨other, mem_named.mp (within isLeft), same⟩⟩

theorem eq_of_short (short : inits.length < 2) {left right : IrFunctionId} (isLeft : left ∈ inits)
    (isRight : right ∈ inits) : left = right := by
  cases inits with
  | nil => cases isLeft
  | cons head tail =>
      have none : tail = [] := by
        rw [List.length_cons] at short
        exact List.length_eq_zero_iff.mp (by omega)
      subst none
      rw [List.mem_singleton.mp isLeft, List.mem_singleton.mp isRight]

/-- Initialisers come back each once, and after all initialisers of the other files they
reach if no files reach each other in a cycle. -/
theorem inits_follow_dependencies (module : MergedModule) :
    ∃ order, module.orderedInits "__init__" = some order ∧ order.Nodup ∧
      (∀ id, id ∈ order ↔ module.IsNamed "__init__" id) ∧
      (Acyclic module.FileReaches → ∀ init ∈ order, ∀ other ∈ order,
        fileOf other ≠ fileOf init → module.Reaches init (fileOf other) →
          order.idxOf other < order.idxOf init) := by
  have distinct := module.nodup_named "__init__"
  unfold orderedInits
  dsimp only
  split_ifs with few
  · refine ⟨_, rfl, distinct, fun id => mem_named, ?_⟩
    intro _ init isInit other isOther different
    have short := few.resolve_right fun wrong => wrong rfl
    exact absurd (congrArg fileOf (eq_of_short short isOther isInit)) different
  · obtain ⟨deps, listed, depends⟩ := module.dependencies_spec distinct
    have nothing : Settled (module.named "__init__") [] := fun _ isDone => by cases isDone
    obtain ⟨order, drained, perm, inOrder⟩ := drain_spec (OrdMap.ofList deps)
      (le_refl (module.named "__init__").length) nothing
    refine ⟨order, ?_, perm.nodup_iff.mpr distinct, fun id => ?_, ?_⟩
    · rw [listed]
      exact drained
    · rw [perm.mem_iff, mem_named]
    · intro acyclic init isInit other isOther different reaches
      obtain ⟨before, after, split⟩ := List.append_of_mem isInit
      have clear := inOrder (fun left within some => depends.ready acyclic within some)
        before init after split
      have dependsOn := (depends.known init (perm.subset isInit) (fileOf other)).mpr
        ⟨reaches, different, List.mem_map_of_mem (perm.subset isOther)⟩
      have distinctOrder := perm.nodup_iff.mpr distinct
      subst split
      have isBefore : other ∈ before := by
        rcases List.mem_append.mp isOther with isBefore | isAfter
        · exact isBefore
        · rcases List.mem_cons.mp isAfter with same | later
          · exact absurd (congrArg fileOf same) different
          · exact absurd rfl (clear _ dependsOn other later)
      have notBefore : init ∉ before := fun member =>
        (List.nodup_append.mp distinctOrder).2.2 init member init List.mem_cons_self rfl
      rw [List.idxOf_append_of_mem isBefore, List.idxOf_append_of_notMem notBefore]
      have inside := List.idxOf_lt_length_of_mem isBefore
      omega

/-- Two files: the initialiser of the first calls a function of the second. -/
def callingAhead : MergedModule where
  functions := ⟨[(100000, ⟨100000, "__init__", .userDefined,
      ⟨⟨[(0, { instructions := [.callDirect none 110001 [] []] })], by decide⟩, 0, 1⟩⟩),
    (110000, ⟨110000, "__init__", .userDefined, ⟨⟨[(0, {})], by decide⟩, 0, 1⟩⟩),
    (110001, ⟨110001, "helper", .userDefined, ⟨⟨[(0, {})], by decide⟩, 0, 1⟩⟩)], by decide⟩
  keyed id function found := by
    have member := (OrdMap.mem_entries_iff _ _ _).mpr found
    simp only [List.mem_cons, Prod.mk.injEq, List.not_mem_nil, or_false] at member
    rcases member with ⟨rfl, rfl⟩ | ⟨rfl, rfl⟩ | ⟨rfl, rfl⟩ <;> rfl

theorem reaches_callingAhead {init : IrFunctionId} {file : Nat}
    (isInit : callingAhead.IsNamed "__init__" init) (reaches : callingAhead.Reaches init file) :
    file = 11 := by
  obtain ⟨reached, returned, spec⟩ := reachedFiles_spec callingAhead init
  have member := (spec file).mpr reaches
  have inits : callingAhead.named "__init__" = [100000, 110000] := by decide +kernel
  have listed := inits ▸ mem_named.mpr isInit
  rcases List.mem_cons.mp listed with rfl | rest
  · have found : callingAhead.reachedFiles 100000 = some {11} := by decide +kernel
    cases found.symm.trans returned
    exact Finset.mem_singleton.mp member
  · cases List.mem_singleton.mp rest
    have found : callingAhead.reachedFiles 110000 = some ∅ := by decide +kernel
    cases found.symm.trans returned
    cases Finset.notMem_empty _ member

theorem inits_follow_callingAhead : ∃ order, callingAhead.orderedInits "__init__" = some order ∧
    order.idxOf 110000 < order.idxOf 100000 := by
  obtain ⟨order, returned, -, listed, inOrder⟩ := inits_follow_dependencies callingAhead
  have inits : callingAhead.named "__init__" = [100000, 110000] := by decide +kernel
  have first : callingAhead.IsNamed "__init__" 100000 := mem_named.mp (by simp [inits])
  have second : callingAhead.IsNamed "__init__" 110000 := mem_named.mp (by simp [inits])
  refine ⟨order, returned, inOrder ?_ _ ((listed _).mpr first) _ ((listed _).mpr second)
    (by decide) ?_⟩
  · apply Acyclic.of_rank fun file => if file = 11 then 0 else 1
    rintro file next ⟨different, ⟨init, isInit, -, reaches⟩, -⟩
    have isNext := reaches_callingAhead isInit reaches
    subst isNext
    simp [different]
  · obtain ⟨reached, found, spec⟩ := reachedFiles_spec callingAhead 100000
    have known : callingAhead.reachedFiles 100000 = some {11} := by decide +kernel
    cases known.symm.trans found
    exact (spec 11).mp (Finset.mem_singleton_self 11)

end MergedModule

end Rayzor.Inits
