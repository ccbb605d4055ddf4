import Rayzor.Interp.Stepping

/-!
Contract: what an instruction depends on and what it leaves alone.

Owns: that `eval` reads only the operands and commutes with renaming them; how an
operand is looked up among phis and loads; that only stores to a global and calls
change it.
-/

namespace Rayzor.Interp

open Ir

variable {E : Type} {module : IrModule} {host : Host E} {decl : Decl} {site : Site}

theorem eval_congr {first second : IrId → Word} {inst : IrInstruction}
    (agree : ∀ reg ∈ inst.uses, first reg = second reg) (world : World E) :
    eval module host decl site first inst world = eval module host decl site second inst world := by
  cases inst
  all_goals simp only [IrInstruction.uses, List.mem_cons, List.not_mem_nil, or_false,
    forall_eq_or_imp, forall_eq, Option.mem_toList] at agree
  case callDirect =>
    simp only [eval]
    rw [List.map_congr_left agree]
  case callIndirect =>
    simp only [eval]
    rw [List.map_congr_left agree.2, agree.1]
  case makeClosure =>
    simp only [eval]
    rw [List.map_congr_left agree]
  case createStruct =>
    simp only [eval]
    rw [List.map_congr_left agree]
  case getElementPtr dest ptr indices ty =>
    rcases indices with _ | ⟨index, _ | ⟨_, _⟩⟩
    · rfl
    · simp only [eval, agree.1, agree.2 index (List.mem_singleton_self _)]
    · rfl
  all_goals simp only [eval, agree]

theorem eval_renameUses (replace : IrId → IrId) (get : IrId → Word) {inst : IrInstruction}
    (renamed : inst.operandsKept = false) (world : World E) :
    eval module host decl site get (inst.renameUses replace) world =
      eval module host decl site (get ∘ replace) inst world := by
  cases inst
  case getElementPtr dest ptr indices ty =>
    rcases indices with _ | ⟨index, _ | ⟨_, _⟩⟩
    · rfl
    · rfl
    · simp [eval, IrInstruction.renameUses]
  all_goals first
    | rfl
    | simp [eval, IrInstruction.renameUses, List.map_map]; done
    | cases renamed

/-- Two sites give an instruction the same, as far as it looks. -/
structure SiteAgrees (inst : IrInstruction) (first second : Site) : Prop where
  slot : inst.destIsOperand = false → first.slot = second.slot
  env : ∀ dest captured, inst = .closureEnv dest captured → first.env = second.env
  moved : first.moved = second.moved

theorem eval_site {first second : Site} {inst : IrInstruction}
    (agrees : SiteAgrees inst first second) (get : IrId → Word) (world : World E) :
    eval module host decl first get inst world = eval module host decl second get inst world := by
  obtain ⟨slot, env, moved⟩ := agrees
  cases inst
  case closureEnv dest captured => simp only [eval, env dest captured rfl]
  all_goals first
    | rfl
    | simp only [eval, slot rfl, moved]

theorem runIntrinsic_assigns {callee : Callee} {args : List Word} {intrinsic : Intrinsic}
    (chosen : callee.intrinsic args = some intrinsic) {memory : Memory} {result : Option Word}
    (ran : runIntrinsic host memory intrinsic true args = .ok result) : result.isSome := by
  unfold Callee.intrinsic at chosen
  split_ifs at chosen
  split at chosen
  case h_5 => cases chosen
  case h_1 =>
    split_ifs at chosen
    cases chosen
    obtain ⟨_, -, same⟩ := bind_eq_ok.mp ran
    cases same
    rfl
  all_goals
    cases chosen
    obtain ⟨_, -, same⟩ := bind_eq_ok.mp ran
    cases same
    rfl

theorem answered_assigns {event : Event} {answer : Except Fault (BitVec 64) × Core E}
    {received : BitVec 64 → Except Fault Word} {world : World E}
    {result : Option Word × World E}
    (returned : answered event answer true received world = .ok result) : result.1.isSome := by
  obtain ⟨_, -, returned⟩ := bind_eq_ok.mp returned
  obtain ⟨_, -, same⟩ := bind_eq_ok.mp returned
  cases same
  rfl

theorem eval_assigns {get : IrId → Word} {inst : IrInstruction} {world : World E}
    {result : Option Word × World E} {dest : IrId}
    (evaluated : eval module host decl site get inst world = .ok result)
    (writes : inst.writes = some dest) : result.1.isSome := by
  have assigned : ∀ {computed : Exec E (Word × World E)},
      assigning computed = .ok result → result.1.isSome := by
    intro computed finished
    obtain ⟨_, -, same⟩ := bind_eq_ok.mp finished
    cases same
    rfl
  have computed : ∀ {value : Except Fault Word}, computing world value = .ok result →
      result.1.isSome := by
    intro value finished
    obtain ⟨_, -, same⟩ := bind_eq_ok.mp finished
    cases same
    rfl
  cases inst
  case callDirect dest' func args isTail =>
    obtain rfl : dest' = some dest := writes
    simp only [eval, callDirect, Option.isSome_some] at evaluated
    split at evaluated
    · cases evaluated
    split at evaluated
    · cases evaluated
    split at evaluated
    · rename_i chosen
      obtain ⟨word, ran, same⟩ := bind_eq_ok.mp evaluated
      cases same
      exact runIntrinsic_assigns chosen (lift_eq_ok.mp ran)
    · split at evaluated
      · cases evaluated
      obtain ⟨_, -, evaluated⟩ := bind_eq_ok.mp evaluated
      exact answered_assigns evaluated
  case callIndirect dest' funcPtr args signature =>
    obtain rfl : dest' = some dest := writes
    simp only [eval, callIndirect, Option.isSome_some] at evaluated
    split at evaluated
    · split at evaluated
      · cases evaluated
      obtain ⟨_, -, evaluated⟩ := bind_eq_ok.mp evaluated
      split at evaluated
      · cases evaluated
      obtain ⟨_, -, evaluated⟩ := bind_eq_ok.mp evaluated
      obtain ⟨_, -, evaluated⟩ := bind_eq_ok.mp evaluated
      exact answered_assigns evaluated
    · cases evaluated
  case createStruct =>
    simp only [eval] at evaluated
    split at evaluated
    · cases evaluated
    obtain ⟨_, -, same⟩ := bind_eq_ok.mp evaluated
    cases same
    rfl
  case createUnion =>
    obtain ⟨_, -, evaluated⟩ := bind_eq_ok.mp evaluated
    obtain ⟨_, -, same⟩ := bind_eq_ok.mp evaluated
    cases same
    rfl
  all_goals first
    | exact assigned evaluated
    | exact computed evaluated
    | (cases writes; done)
    | cases evaluated

theorem phiType_eq (function : IrFunction) (regs : List IrId) : phiType function regs =
    function.cfg.blocks.values.findSome? fun block =>
      (block.phiNodes.find? fun phi => regs.contains phi.dest).map (·.ty) := by
  rw [phiType, List.find?_flatMap, List.map_findSome?]
  rfl

theorem findSome?_flatMap {α β γ : Type} (list : List α) (expand : α → List β)
    (find : β → Option γ) : (list.flatMap expand).findSome? find =
      list.findSome? fun entry => (expand entry).findSome? find := by
  rw [← List.head?_filterMap, List.filterMap_flatMap, List.head?_flatMap]
  simp only [List.head?_filterMap]

def loadOf (aggregate : IrId) : IrInstruction → Option IrType
  | .load dest _ ty => if dest = aggregate then some ty else none
  | _ => none

def loadedIn (aggregate : IrId) (block : IrBasicBlock) : Option IrType :=
  block.instructions.findSome? (loadOf aggregate)

theorem aggregateType_eq (function : IrFunction) (aggregate : IrId) :
    aggregateType function aggregate =
      (((function.signature.parameters.find? fun param => param.reg == aggregate).map (·.ty)) <|>
        localType function aggregate <|>
        function.cfg.blocks.values.findSome? (loadedIn aggregate)) := by
  rw [aggregateType, findSome?_flatMap]
  rfl

theorem loadOf_eq_some {aggregate : IrId} {inst : IrInstruction} {ty : IrType} :
    loadOf aggregate inst = some ty ↔ ∃ ptr, inst = .load aggregate ptr ty := by
  cases inst
  case load dest ptr ty' =>
    simp only [loadOf, IrInstruction.load.injEq]
    split_ifs with same <;> simp [same]
  all_goals simp [loadOf]

theorem loadedIn_eq_some {aggregate : IrId} {block : IrBasicBlock} {ty : IrType}
    (isLoaded : loadedIn aggregate block = some ty) :
    ∃ ptr, IrInstruction.load aggregate ptr ty ∈ block.instructions := by
  obtain ⟨inst, member, found⟩ := List.exists_of_findSome?_eq_some isLoaded
  obtain ⟨ptr, rfl⟩ := loadOf_eq_some.mp found
  exact ⟨ptr, member⟩

/-- What a block says about the type of an operand. -/
def phiIn (regs : List IrId) (block : IrBasicBlock) : Option IrType :=
  (block.phiNodes.find? fun phi => regs.contains phi.dest).map (·.ty)

/-- An instruction decodes alike in two functions with the same registers whose
blocks say the same about its operands. -/
theorem declOf_congr {function function' : IrFunction} {inst : IrInstruction}
    (parameters : function'.signature.parameters = function.signature.parameters)
    (registers : function'.registerTypes = function.registerTypes)
    (locals : function'.locals = function.locals)
    (phis : ∀ id regs, (∀ reg ∈ regs, reg ∈ inst.uses) →
      (function'.getBlock id).bind (phiIn regs) = (function.getBlock id).bind (phiIn regs))
    (loads : ∀ id, ∀ aggregate ∈ inst.uses, (function'.getBlock id).bind (loadedIn aggregate) =
      (function.getBlock id).bind (loadedIn aggregate)) :
    declOf function' inst = declOf function inst := by
  have regTypes : regType function' = regType function := by
    unfold regType
    rw [registers]
  have localTypes : localType function' = localType function := by
    unfold localType
    rw [locals]
  have phiTypes : ∀ regs : List IrId, (∀ reg ∈ regs, reg ∈ inst.uses) →
      phiType function' regs = phiType function regs := by
    intro regs operands
    rw [phiType_eq, phiType_eq]
    exact Library.OrdMap.findSome?_values_congr fun id => phis id regs operands
  cases inst
  case binOp dest op left right =>
    simp only [declOf, binopType, regTypes, localTypes,
      phiTypes [left, right] (by simp [IrInstruction.uses])]
  case unOp dest op operand =>
    simp only [declOf, unopType, regTypes, localTypes,
      phiTypes [operand] (by simp [IrInstruction.uses])]
  case cmp dest op left right =>
    simp only [declOf, cmpType, regTypes, localTypes,
      phiTypes [left] (by simp [IrInstruction.uses])]
  case extractValue dest aggregate indices =>
    have sameLoads := Library.OrdMap.findSome?_values_congr fun id =>
      loads id aggregate (by simp [IrInstruction.uses])
    simp only [declOf, aggregateType_eq, parameters, localTypes, sameLoads]
  all_goals simp only [declOf, regTypes]

/-- The instructions after which a global may have another value. -/
def clobbers (globalId : IrGlobalId) : IrInstruction → Bool
  | .storeGlobal other _ => other == globalId
  | .callDirect _ _ _ _ | .callIndirect _ _ _ _ => true
  | _ => false

theorem malloc_globals {size : Nat} {world : World E} {result : BitVec 64 × World E}
    (allocated : malloc host size world = .ok result) : result.2.globals = world.globals := by
  simp only [malloc] at allocated
  split_ifs at allocated
  cases allocated
  rfl

theorem store_globals {world next : World E} {address bits : BitVec 64} {mt : Mt}
    (stored : store world address mt bits = .ok next) : next.globals = world.globals := by
  obtain ⟨memory, -, same⟩ := bind_eq_ok.mp stored
  cases same
  rfl

theorem storeFields_globals {world next : World E} {slot : BitVec 64}
    {fields : List (Word × (Nat × Mt))} (stored : storeFields world slot fields = .ok next) :
    next.globals = world.globals := by
  induction fields generalizing world with
  | nil =>
      cases stored
      rfl
  | cons field rest ih =>
      obtain ⟨middle, first, rest⟩ := bind_eq_ok.mp stored
      rw [ih rest, store_globals first]

theorem makeClosure_globals {func : IrFunctionId} {captures : List Word}
    {world : World E} {result : Word × World E}
    (made : makeClosure host func captures world = .ok result) :
    result.2.globals = world.globals := by
  obtain ⟨_, -, made⟩ := bind_eq_ok.mp made
  obtain ⟨_, -, made⟩ := bind_eq_ok.mp made
  obtain ⟨⟨_, first⟩, environment, made⟩ := bind_eq_ok.mp made
  have kept : first.globals = world.globals := by
    simp only [allocEnv] at environment
    split_ifs at environment
    · cases environment
      rfl
    · exact malloc_globals environment
  obtain ⟨_, -, made⟩ := bind_eq_ok.mp made
  obtain ⟨⟨_, second⟩, object, made⟩ := bind_eq_ok.mp made
  obtain ⟨_, -, made⟩ := bind_eq_ok.mp made
  obtain ⟨_, -, made⟩ := bind_eq_ok.mp made
  cases made
  exact (malloc_globals object).trans kept

theorem atomic_globals {world : World E} {mt : Mt} {address : BitVec 64}
    {update : BitVec 64 → Option (BitVec 64)} {result : Word × World E}
    (accessed : atomic world mt address update = .ok result) :
    result.2.globals = world.globals := by
  simp only [atomic] at accessed
  split_ifs at accessed <;> split at accessed <;> cases accessed <;> rfl

theorem assigning_eq_ok {computed : Exec E (Word × World E)} {result : Option Word × World E} :
    assigning computed = .ok result ↔
      ∃ pair, computed = .ok pair ∧ result = (some pair.1, pair.2) := by
  unfold assigning
  rw [bind_eq_ok]
  simp only [Except.ok.injEq, eq_comm (b := result)]

theorem computing_eq_ok {world : World E} {value : Except Fault Word}
    {result : Option Word × World E} :
    computing world value = .ok result ↔ ∃ word, value = .ok word ∧ result = (some word, world) := by
  unfold computing
  rw [bind_eq_ok]
  simp only [lift_eq_ok, Except.ok.injEq, eq_comm (b := result)]

theorem eval_globals {get : IrId → Word} {inst : IrInstruction} {world : World E}
    {result : Option Word × World E} {globalId : IrGlobalId}
    (evaluated : eval module host decl site get inst world = .ok result)
    (kept : clobbers globalId inst = false) :
    result.2.globals globalId = world.globals globalId := by
  cases inst
  all_goals simp only [eval, assigning_eq_ok, computing_eq_ok] at evaluated
  case const dest value =>
    obtain ⟨_, loaded, rfl⟩ := evaluated
    unfold Interp.constant at loaded
    split at loaded
    · split_ifs at loaded
      cases loaded
      rfl
    · obtain ⟨_, -, loaded⟩ := bind_eq_ok.mp loaded
      cases loaded
      rfl
    · split at loaded
      · cases loaded
        rfl
      · cases loaded
  case clone =>
    obtain ⟨_, cloned, rfl⟩ := evaluated
    simp only [cloneObject] at cloned
    split_ifs at cloned
    obtain ⟨⟨_, first⟩, object, cloned⟩ := bind_eq_ok.mp cloned
    cases cloned
    exact congrFun (malloc_globals object) globalId
  case functionRef | makeClosure =>
    obtain ⟨_, made, rfl⟩ := evaluated
    exact congrFun (makeClosure_globals made) globalId
  case atomicLoad | atomicRmw =>
    obtain ⟨_, accessed, rfl⟩ := evaluated
    split at accessed
    · cases accessed
    · exact congrFun (atomic_globals accessed) globalId
  case atomicCas =>
    obtain ⟨_, accessed, rfl⟩ := evaluated
    exact congrFun (atomic_globals accessed) globalId
  case atomicStore =>
    obtain ⟨_, accessed, same⟩ := bind_eq_ok.mp evaluated
    cases same
    exact congrFun (atomic_globals accessed) globalId
  case callDirect => cases kept
  case callIndirect => cases kept
  case store =>
    obtain ⟨_, -, evaluated⟩ := bind_eq_ok.mp evaluated
    obtain ⟨_, stored, same⟩ := bind_eq_ok.mp evaluated
    cases same
    exact congrFun (store_globals stored) globalId
  case createUnion =>
    obtain ⟨_, tag, evaluated⟩ := bind_eq_ok.mp evaluated
    obtain ⟨_, payload, same⟩ := bind_eq_ok.mp evaluated
    cases same
    exact congrFun ((store_globals payload).trans (store_globals tag)) globalId
  case createStruct =>
    split at evaluated
    · cases evaluated
    obtain ⟨_, stored, same⟩ := bind_eq_ok.mp evaluated
    cases same
    exact congrFun (storeFields_globals stored) globalId
  case checkLive | memCopy | memSet =>
    split at evaluated <;> cases evaluated <;> rfl
  case storeGlobal other value =>
    cases evaluated
    have different : globalId ≠ other := by
      rintro rfl
      simp [clobbers] at kept
    simp [World.record, different]
  case free =>
    cases evaluated
    rfl
  all_goals first
    | (obtain ⟨_, -, rfl⟩ := evaluated
       rfl)
    | cases evaluated

end Rayzor.Interp
