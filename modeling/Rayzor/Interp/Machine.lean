import Rayzor.Library.Transition
import Rayzor.Interp.Execute

/-!
Contract: a function run as the interpreter runs it, one instruction or one
control transfer at a time.

Owns: frames, parallel moves along an edge, terminators with their traps, and
the step machine of a function whose callees the host answers.
-/

namespace Rayzor.Interp

open Ir Library

abbrev Regs := IrId → Word

def Regs.set (regs : Regs) (reg : IrId) (word : Word) : Regs :=
  fun other => if other = reg then word else regs other

/-- Write each register in turn. -/
def Regs.setAll (regs : Regs) (assignments : List (IrId × Word)) : Regs :=
  assignments.foldl (fun regs entry => regs.set entry.1 entry.2) regs

@[simp] theorem Regs.set_same (regs : Regs) (reg : IrId) (word : Word) :
    regs.set reg word reg = word := by
  simp [Regs.set]

theorem Regs.set_of_ne (regs : Regs) {reg other : IrId} (word : Word) (different : other ≠ reg) :
    regs.set reg word other = regs other := by
  simp [Regs.set, different]

@[simp] theorem Regs.setAll_nil (regs : Regs) : regs.setAll [] = regs := rfl

@[simp] theorem Regs.setAll_cons (regs : Regs) (entry : IrId × Word)
    (rest : List (IrId × Word)) :
    regs.setAll (entry :: rest) = (regs.set entry.1 entry.2).setAll rest := rfl

theorem Regs.setAll_of_notMem (regs : Regs) {assignments : List (IrId × Word)} {other : IrId}
    (absent : other ∉ assignments.map Prod.fst) : regs.setAll assignments other = regs other := by
  induction assignments generalizing regs with
  | nil => rfl
  | cons entry rest ih =>
      simp only [List.map_cons, List.mem_cons, not_or] at absent
      rw [setAll_cons, ih _ absent.2, regs.set_of_ne _ absent.1]

theorem Regs.setAll_of_mem (regs : Regs) {assignments : List (IrId × Word)} {reg : IrId}
    {word : Word} (distinct : (assignments.map Prod.fst).Nodup)
    (member : (reg, word) ∈ assignments) : regs.setAll assignments reg = word := by
  induction assignments generalizing regs with
  | nil => cases member
  | cons entry rest ih =>
      rw [List.map_cons, List.nodup_cons] at distinct
      rcases List.mem_cons.mp member with rfl | later
      · rw [setAll_cons, Regs.setAll_of_notMem _ distinct.1, set_same]
      · exact ih _ distinct.2 later

/-- One activation. `slots` says where the stack slot of an instruction with a
given destination lies. -/
structure Frame where
  regs : Regs
  moved : IrId → Bool
  slots : Option IrId → BitVec 64
  env : BitVec 64
  sret : BitVec 64

def Frame.site (frame : Frame) (inst : IrInstruction) : Site where
  slot := frame.slots inst.dest
  env := frame.env
  moved := match inst with
    | .checkLive src _ => frame.moved src
    | _ => false

def Frame.after (frame : Frame) (inst : IrInstruction) (result : Option Word) : Frame where
  regs := match inst.writes, result with
    | some dest, some word => frame.regs.set dest word
    | _, _ => frame.regs
  moved := match inst with
    | .markMoved src => fun other => if other = src then true else frame.moved other
    | _ => frame.moved
  slots := frame.slots
  env := frame.env
  sret := frame.sret

variable {E : Type}

def execute (module : IrModule) (host : Host E) (function : IrFunction) (inst : IrInstruction)
    (frame : Frame) (world : World E) : Exec E (Frame × World E) := do
  let (result, world) ←
    eval module host (declOf function inst) (frame.site inst) frame.regs inst world
  .ok (frame.after inst result, world)

def phiMove (source : IrBlockId) (phi : IrPhiNode) : Except Fault (IrPhiNode × IrId) :=
  match phi.valueFrom source with
  | some value => .ok (phi, value)
  | none => .error .missingIncoming

/-- The parallel moves along an edge: each phi of the target with its value. -/
def edgeMoves (function : IrFunction) (source target : IrBlockId) :
    Except Fault (List (IrPhiNode × IrId)) :=
  match function.getBlock target with
  | none => .error .missingTarget
  | some block => block.phiNodes.mapM (phiMove source)

/-- Every value is read before any phi is written. -/
def takeMoves (regs : Regs) (moves : List (IrPhiNode × IrId)) : Except Fault Regs := do
  let words ← moves.mapM fun move => phiWord move.1.ty (regs move.2)
  .ok (regs.setAll ((moves.map (·.1.dest)).zip words))

/-- Where a terminator with successors goes. -/
def chosenTarget (regs : Regs) : IrTerminator → Option IrBlockId
  | .branch target => some target
  | .condBranch condition trueTarget falseTarget =>
      some (if (regs condition).bits ≠ 0 then trueTarget else falseTarget)
  | .switch value cases default =>
      let selected := sext (regs value).bits (regs value).mt
      some (((cases.find? fun entry => entry.1 == selected).map Prod.snd).getD default)
  | _ => none

inductive Outcome (E : Type) where
  | returned (bits : BitVec 64) (world : World E)
  | faulted (fault : Fault) (world : World E)

structure State (E : Type) where
  block : IrBlockId
  pc : Nat
  frame : Frame
  world : World E

/-- Copy a returned struct into the caller's slot, field by field. -/
def copyFields (world : World E) (src dest : BitVec 64) :
    List (Nat × Mt) → Exec E (World E)
  | [] => .ok world
  | (offset, mt) :: rest => do
      let bits ← lift world (read world.memory (src + BitVec.ofNat 64 offset) mt)
      let world ← store world (dest + BitVec.ofNat 64 offset) mt bits
      copyFields world src dest rest

def returnFrom (function : IrFunction) (value : Option IrId) (frame : Frame) (world : World E) :
    Exec E (BitVec 64 × World E) :=
  let signature := function.signature
  match value with
  | some value =>
      if signature.usesSret then
        match regType function value <|> localType function value with
        | none => .error (.typeNotFound, world)
        | some ty =>
            match structLayout ty with
            | none => .error (.notStruct, world)
            | some layout => do
                let world ← copyFields world (frame.regs value).bits frame.sret layout
                .ok (frame.sret, world)
      else do
        let word ← lift world (returnWord signature.returnType (frame.regs value))
        .ok (word.bits, world)
  | none =>
      if signature.usesSret = false ∧ signature.returnType ≠ .void then
        .error (.missingReturnValue, world)
      else .ok (0, world)

def finish (result : Exec E (BitVec 64 × World E)) : Outcome E :=
  match result with
  | .ok (bits, world) => .returned bits world
  | .error (fault, world) => .faulted fault world

/-- Follow the edge to `target`. Every edge of a terminator is decoded before
any is taken. -/
def transfer (function : IrFunction) (source : IrBlockId) (term : IrTerminator)
    (target : IrBlockId) (regs : Regs) : Except Fault Regs := do
  let _ ← term.successors.mapM (edgeMoves function source)
  let moves ← edgeMoves function source target
  takeMoves regs moves

/-- Go on in the target block, unless the edge could not be taken. -/
def arrive (target : IrBlockId) (frame : Frame) (world : World E) :
    Except Fault Regs → State E ⊕ Outcome E
  | .error fault => .inr (.faulted fault world)
  | .ok regs => .inl { block := target, pc := 0, frame := { frame with regs }, world }

def terminate (function : IrFunction) (source : IrBlockId) (term : IrTerminator)
    (frame : Frame) (world : World E) : State E ⊕ Outcome E :=
  match term with
  | .ret value => .inr (finish (returnFrom function value frame world))
  | .unreachable => .inr (.faulted .unreachableCode world)
  | .noReturn _ => .inr (.faulted .noReturn world)
  | term =>
      match chosenTarget frame.regs term with
      | none => .inr (.faulted .missingTarget world)
      | some target => arrive target frame world (transfer function source term target frame.regs)

def step (module : IrModule) (host : Host E) (function : IrFunction) (state : State E) :
    State E ⊕ Outcome E :=
  match function.getBlock state.block with
  | none => .inr (.faulted .missingTarget state.world)
  | some block =>
      match block.instructions[state.pc]? with
      | some inst =>
          match execute module host function inst state.frame state.world with
          | .ok (frame, world) => .inl { state with pc := state.pc + 1, frame, world }
          | .error (fault, world) => .inr (.faulted fault world)
      | none => terminate function state.block block.terminator state.frame state.world

/-- The frame a call enters with: parameters in canonical form, every other
register zero. -/
def entryFrame (function : IrFunction) (args : List (BitVec 64)) (slots : Option IrId → BitVec 64)
    (env sret : BitVec 64) : Frame where
  regs := (function.signature.parameters.zipIdx).foldl (fun regs entry =>
    let mt := (Mt.of entry.1.ty).getD .i64
    regs.set entry.1.reg ⟨mt, canon ((args[entry.2]?).getD 0) mt⟩) fun _ => default
  moved := fun _ => false
  slots
  env
  sret

def entryState (function : IrFunction) (frame : Frame) (world : World E) : State E where
  block := function.cfg.entryBlock
  pc := 0
  frame
  world

theorem lift_eq_ok {α : Type} {world : World E} {result : Except Fault α} {value : α} :
    lift world result = .ok value ↔ result = .ok value := by
  cases result <;> simp

theorem store_trace {world next : World E} {address bits : BitVec 64} {mt : Mt}
    (stored : store world address mt bits = .ok next) : world.trace <:+ next.trace := by
  obtain ⟨memory, -, same⟩ := bind_eq_ok.mp stored
  cases same
  exact List.suffix_cons _ _

theorem storeFields_trace {world next : World E} {slot : BitVec 64}
    {fields : List (Word × (Nat × Mt))} (stored : storeFields world slot fields = .ok next) :
    world.trace <:+ next.trace := by
  induction fields generalizing world with
  | nil =>
      cases stored
      exact List.suffix_refl _
  | cons field rest ih =>
      obtain ⟨middle, first, rest⟩ := bind_eq_ok.mp stored
      exact (store_trace first).trans (ih rest)

theorem malloc_trace {host : Host E} {size : Nat} {world : World E}
    {result : BitVec 64 × World E} (allocated : malloc host size world = .ok result) :
    result.2.trace = world.trace := by
  simp only [malloc] at allocated
  split_ifs at allocated
  cases allocated
  rfl

theorem makeClosure_trace {host : Host E} {func : IrFunctionId} {captures : List Word}
    {world : World E} {result : Word × World E}
    (made : makeClosure host func captures world = .ok result) :
    result.2.trace = world.trace := by
  obtain ⟨_, -, made⟩ := bind_eq_ok.mp made
  obtain ⟨_, -, made⟩ := bind_eq_ok.mp made
  obtain ⟨⟨_, first⟩, environment, made⟩ := bind_eq_ok.mp made
  have kept : first.trace = world.trace := by
    simp only [allocEnv] at environment
    split_ifs at environment
    · cases environment
      rfl
    · exact malloc_trace environment
  obtain ⟨_, -, made⟩ := bind_eq_ok.mp made
  obtain ⟨⟨_, second⟩, object, made⟩ := bind_eq_ok.mp made
  obtain ⟨_, -, made⟩ := bind_eq_ok.mp made
  obtain ⟨_, -, made⟩ := bind_eq_ok.mp made
  cases made
  exact (malloc_trace object).trans kept

theorem cloneObject_trace {host : Host E} {source : Word} {world : World E}
    {result : Word × World E} (cloned : cloneObject host source world = .ok result) :
    result.2.trace = world.trace := by
  simp only [cloneObject] at cloned
  split_ifs at cloned
  obtain ⟨⟨_, first⟩, object, cloned⟩ := bind_eq_ok.mp cloned
  cases cloned
  exact malloc_trace object

theorem constant_trace {host : Host E} {value : IrValue} {world : World E}
    {result : Word × World E} (loaded : constant host value world = .ok result) :
    result.2.trace = world.trace := by
  unfold constant at loaded
  split at loaded
  · split_ifs at loaded
    cases loaded
    rfl
  · obtain ⟨_, -, loaded⟩ := bind_eq_ok.mp loaded
    cases loaded
    rfl
  · split at loaded
    · cases loaded
      rfl
    · cases loaded

theorem atomic_trace {world : World E} {mt : Mt} {address : BitVec 64}
    {update : BitVec 64 → Option (BitVec 64)} {result : Word × World E}
    (accessed : atomic world mt address update = .ok result) :
    world.trace <:+ result.2.trace := by
  simp only [atomic] at accessed
  split_ifs at accessed <;> split at accessed <;> cases accessed
  all_goals first
    | exact List.suffix_refl _
    | exact List.suffix_cons _ _

theorem answered_trace {event : Event} {answer : Except Fault (BitVec 64) × Core E}
    {wanted : Bool} {received : BitVec 64 → Except Fault Word} {world : World E}
    {result : Option Word × World E}
    (returned : answered event answer wanted received world = .ok result) :
    world.trace <:+ result.2.trace := by
  obtain ⟨_, -, returned⟩ := bind_eq_ok.mp returned
  split at returned
  · obtain ⟨_, -, returned⟩ := bind_eq_ok.mp returned
    cases returned
    exact List.suffix_cons _ _
  · cases returned
    exact List.suffix_cons _ _

theorem callDirect_trace {module : IrModule} {host : Host E} {decl : Decl} {slot : BitVec 64}
    {wanted : Bool} {func : IrFunctionId} {args : List Word} {world : World E}
    {result : Option Word × World E}
    (called : callDirect module host decl slot wanted func args world = .ok result) :
    world.trace <:+ result.2.trace := by
  unfold callDirect at called
  split at called
  · cases called
  split at called
  · cases called
  split at called
  · obtain ⟨_, -, called⟩ := bind_eq_ok.mp called
    cases called
    exact List.suffix_refl _
  split at called
  · cases called
  obtain ⟨_, -, called⟩ := bind_eq_ok.mp called
  exact answered_trace called

theorem callIndirect_trace {host : Host E} {decl : Decl} {wanted : Bool} {closure : Word}
    {args : List Word} {signature : IrType} {world : World E} {result : Option Word × World E}
    (called : callIndirect host decl wanted closure args signature world = .ok result) :
    world.trace <:+ result.2.trace := by
  unfold callIndirect at called
  split at called
  · split at called
    · cases called
    obtain ⟨_, -, called⟩ := bind_eq_ok.mp called
    split at called
    · cases called
    obtain ⟨_, -, called⟩ := bind_eq_ok.mp called
    obtain ⟨_, -, called⟩ := bind_eq_ok.mp called
    exact answered_trace called
  · cases called

/-- An instruction only adds to what the run has shown. -/
theorem eval_trace {module : IrModule} {host : Host E} {decl : Decl} {site : Site}
    {get : IrId → Word} {inst : IrInstruction} {world : World E}
    {result : Option Word × World E}
    (evaluated : eval module host decl site get inst world = .ok result) :
    world.trace <:+ result.2.trace := by
  have assigned : ∀ {computed : Exec E (Word × World E)},
      assigning computed = .ok result → ∃ word, computed = .ok (word, result.2) := by
    intro computed finished
    obtain ⟨⟨word, world⟩, found, same⟩ := bind_eq_ok.mp finished
    cases same
    exact ⟨word, found⟩
  cases inst
  all_goals simp only [eval] at evaluated
  case const =>
    obtain ⟨_, found⟩ := assigned evaluated
    rw [constant_trace found]
  case clone =>
    obtain ⟨_, found⟩ := assigned evaluated
    rw [cloneObject_trace found]
  case functionRef | makeClosure =>
    obtain ⟨_, found⟩ := assigned evaluated
    rw [makeClosure_trace found]
  case atomicLoad | atomicRmw =>
    obtain ⟨_, found⟩ := assigned evaluated
    split at found
    · cases found
    · exact atomic_trace found
  case atomicCas =>
    obtain ⟨_, found⟩ := assigned evaluated
    exact atomic_trace found
  case atomicStore =>
    obtain ⟨_, found, same⟩ := bind_eq_ok.mp evaluated
    cases same
    exact atomic_trace found
  case callDirect => exact callDirect_trace evaluated
  case callIndirect => exact callIndirect_trace evaluated
  case store =>
    obtain ⟨_, -, evaluated⟩ := bind_eq_ok.mp evaluated
    obtain ⟨_, stored, same⟩ := bind_eq_ok.mp evaluated
    cases same
    exact store_trace stored
  case createUnion =>
    obtain ⟨_, tag, evaluated⟩ := bind_eq_ok.mp evaluated
    obtain ⟨_, payload, same⟩ := bind_eq_ok.mp evaluated
    cases same
    exact (store_trace tag).trans (store_trace payload)
  case createStruct =>
    split at evaluated
    · cases evaluated
    obtain ⟨_, stored, same⟩ := bind_eq_ok.mp evaluated
    cases same
    exact storeFields_trace stored
  case checkLive | memCopy | memSet =>
    split at evaluated <;> cases evaluated
    all_goals first
      | exact List.suffix_refl _
      | exact List.suffix_cons _ _
  case free | storeGlobal =>
    cases evaluated
    exact List.suffix_cons _ _
  all_goals first
    | (cases evaluated <;> exact List.suffix_refl _)
    | (obtain ⟨_, -, same⟩ := bind_eq_ok.mp evaluated
       cases same
       exact List.suffix_refl _)

theorem step_trace {module : IrModule} {host : Host E} {function : IrFunction}
    {state next : State E} (stepped : step module host function state = .inl next) :
    state.world.trace <:+ next.world.trace := by
  unfold step at stepped
  split at stepped
  · cases stepped
  split at stepped
  · split at stepped
    · rename_i executed
      cases stepped
      obtain ⟨_, evaluated, same⟩ := bind_eq_ok.mp executed
      cases same
      exact eval_trace evaluated
    · cases stepped
  · unfold terminate at stepped
    split at stepped
    · cases stepped
    · cases stepped
    · cases stepped
    · split at stepped
      · cases stepped
      · unfold arrive at stepped
        split at stepped
        · cases stepped
        · cases stepped
          exact List.suffix_refl _

def machine (module : IrModule) (host : Host E) (function : IrFunction) :
    Machine (State E) (Outcome E) Event where
  step := step module host function
  observed state := state.world.trace
  observed_step := step_trace

end Rayzor.Interp
