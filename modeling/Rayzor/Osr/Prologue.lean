import Rayzor.Osr.Typed

/-!
Contract: what the prologue of a variant does with a frame.
-/

namespace Rayzor.Osr

open Ir Library Analysis Interp Ssa

def slotWord (memory : Memory) (address : BitVec 64) (ty : IrType) (place : Nat) :
    Except Fault Word :=
  match Mt.of ty with
  | none => .error .voidType
  | some mt => do .ok ⟨mt, ← read memory (address + BitVec.ofNat 64 place) mt⟩

/-- A slot holds its register's value. A phi's is what the edge into the header
makes of the word. -/
def OsrSlot.Holds (slot : OsrSlot) (regs : Regs) (word : Word) : Prop :=
  match slot.param with
  | .headerPhi reg => phiWord slot.ty word = .ok (regs reg)
  | .live reg => word = regs reg

def FrameFilled (result : OsrLayout) (memory : Memory) (address : BitVec 64) (regs : Regs) : Prop :=
  ∀ entry ∈ result.slots.zip result.frame.offsets, ∃ word,
    slotWord memory address entry.1.ty entry.2 = .ok word ∧ entry.1.Holds regs word

def SlotLoad.written (load : SlotLoad) : List IrId := [load.offset, load.addr, load.dest]

theorem dest_cases {redefinedIn : IrId → Option IrBlockId} {load : SlotLoad}
    (loadedAs : LoadedAs redefinedIn load) :
    load.dest ∈ load.fresh ∨ load.slot.param = .live load.dest := by
  have listed : (load.dest, load.slot.ty) ∈ load.types := by simp [SlotLoad.types]
  exact (types_cases loadedAs listed).imp_right And.left

theorem loads_apart {function : IrFunction} {result : OsrLayout}
    (own : ∀ slot ∈ result.slots, slot.param.reg < function.nextRegId)
    (slots : (layoutLoads function result).1.map (·.slot) = result.slots)
    (distinct : (result.slots.map (·.param.reg)).Nodup) :
    (layoutLoads function result).1.Pairwise fun first second => first.dest ∉ second.written := by
  have isLoads := loads_spec function result
  have increasing := (List.pairwise_flatMap.mp isLoads.increasing).2
  have different : (layoutLoads function result).1.Pairwise fun first second =>
      first.slot.param.reg ≠ second.slot.param.reg := by
    rw [← slots, List.map_map] at distinct
    exact List.pairwise_map.mp distinct
  refine (increasing.and different).imp_of_mem ?_
  rintro first second inFirst inSecond ⟨below, apart⟩ written
  have freshPair : ∀ {reg}, reg ∈ first.fresh → reg ∉ second.fresh :=
    fun isFirst isSecond => lt_irrefl _ (below _ isFirst _ isSecond)
  have ownSlot : ∀ {load : SlotLoad}, load ∈ (layoutLoads function result).1 →
      load.slot.param.reg < function.nextRegId :=
    fun inLoads => own _ (slots ▸ List.mem_map_of_mem inLoads)
  have given : ∀ {load : SlotLoad}, load ∈ (layoutLoads function result).1 →
      load.slot.param = .live load.dest → load.dest < function.nextRegId := by
    intro load inLoads isLive
    have small := ownSlot inLoads
    rwa [isLive] at small
  have ofSecond : first.dest ∈ second.fresh ∨ first.dest = second.dest := by
    simp only [SlotLoad.written, List.mem_cons, List.not_mem_nil, or_false] at written
    rcases written with isOffset | isAddr | isDest
    · exact Or.inl (by simp [SlotLoad.fresh, isOffset])
    · exact Or.inl (by simp [SlotLoad.fresh, isAddr])
    · exact Or.inr isDest
  rcases dest_cases (isLoads.loadedAs first inFirst) with isFresh | isLive
  · rcases ofSecond with inSecond' | same
    · exact freshPair isFresh inSecond'
    · rcases dest_cases (isLoads.loadedAs second inSecond) with isFresh' | isLive'
      · exact freshPair isFresh (same ▸ isFresh')
      · exact lt_asymm (given inSecond isLive') (same ▸ fresh_ge inFirst isFresh)
  · rcases ofSecond with inSecond' | same
    · exact lt_asymm (given inFirst isLive) (fresh_ge inSecond inSecond')
    · rcases dest_cases (isLoads.loadedAs second inSecond) with isFresh' | isLive'
      · exact lt_asymm (given inFirst isLive) (same ▸ fresh_ge inSecond isFresh')
      · rw [isLive, isLive'] at apart
        exact apart same

/-- A step that only gives a register a word. -/
theorem reaches_of_eval {E : Type} {module : IrModule} {host : Host E} {function : IrFunction}
    {state : State E} {block : IrBasicBlock} (inst : IrInstruction) {dest : IrId} {word : Word}
    (found : function.getBlock state.block = some block)
    (here : block.instructions[state.pc]? = some inst) (writes : inst.writes = some dest)
    (keepsMoved : ∀ src, inst ≠ .markMoved src)
    (evaluated : eval module host (declOf function inst) (state.frame.site inst) state.frame.regs
      inst state.world = .ok (some word, state.world)) :
    (machine module host function).Reaches state { state with
      pc := state.pc + 1
      frame := { state.frame with regs := state.frame.regs.set dest word } } := by
  have after : state.frame.after inst (some word) =
      { state.frame with regs := state.frame.regs.set dest word } := by
    unfold Frame.after
    rw [writes]
    cases inst
    case markMoved src => exact absurd rfl (keepsMoved src)
    all_goals rfl
  have ran := execute_eq_ok.mpr ⟨some word, evaluated, after.symm⟩
  exact Machine.Reaches.of_step (step_eq_inl.mpr (.executed found here ran))

section Run

variable {E : Type} {module : IrModule} {host : Host E} {function variant : IrFunction}
  {header : IrBlockId} {relaxed : Bool} {result : OsrLayout} {headerBlock : IrBasicBlock}
  {lives : List OsrSlot}
  (resumption : Resumption function header relaxed result headerBlock lives variant)
include resumption

/-- The state a run of the prologue leaves, as far as it matters. -/
structure Loaded (function : IrFunction) (address : BitVec 64) (before : List SlotLoad)
    (first state : State E) : Prop where
  block : state.block = osrEntryId function
  pc : state.pc = 3 * before.length
  world : state.world = first.world
  moved : state.frame.moved = first.frame.moved
  slots : state.frame.slots = first.frame.slots
  env : state.frame.env = first.frame.env
  framePtr : state.frame.regs (framePtr function) = ⟨.i64, address⟩
  words : ∀ load ∈ before,
    slotWord first.world.memory address load.slot.ty load.place = .ok (state.frame.regs load.dest)

theorem Resumption.load_one {address : BitVec 64} {before after : List SlotLoad} {load : SlotLoad}
    (split : (layoutLoads function result).1 = before ++ load :: after) {first state : State E}
    (loaded : Loaded function address before first state) {word : Word}
    (isWord : slotWord first.world.memory address load.slot.ty load.place = .ok word) :
    ∃ next, (machine module host variant).Reaches state next ∧
      Loaded function address (before ++ [load]) first next := by
  obtain ⟨block, found, instructions, -, -⟩ := resumption.atEntry
  have inLoads : load ∈ (layoutLoads function result).1 := by
    rw [split]
    exact List.mem_append_right _ List.mem_cons_self
  have fetch : ∀ step < 3, block.instructions[3 * before.length + step]? =
      (load.code (framePtr function))[step]? := by
    intro step inside
    rw [instructions]
    exact (congrArg (fun loads => (List.flatMap (SlotLoad.code (framePtr function)) loads)[
      3 * before.length + step]?) split).trans (prologue_at _ before after load inside)
  have isLoads := loads_spec function result
  have offsetFresh : load.offset ∈ load.fresh := by simp [SlotLoad.fresh]
  have addrFresh : load.addr ∈ load.fresh := by simp [SlotLoad.fresh]
  have above : ∀ reg ∈ load.fresh, framePtr function ≠ reg :=
    fun reg isFresh => ne_of_lt (fresh_ge inLoads isFresh)
  have destAbove : framePtr function ≠ load.dest := by
    rcases dest_cases (isLoads.loadedAs load inLoads) with isFresh | isLive
    · exact above _ isFresh
    · have small := resumption.accepted.slot_lt resumption.numbered
        (resumption.accepted.load_slot inLoads)
      rw [isLive] at small
      exact (ne_of_lt small).symm
  -- the three instructions in turn
  let regs₁ := state.frame.regs.set load.offset ⟨.i64, BitVec.ofNat 64 load.place⟩
  let state₁ : State E :=
    { state with pc := state.pc + 1, frame := { state.frame with regs := regs₁ } }
  let regs₂ := regs₁.set load.addr ⟨.i64, address + BitVec.ofNat 64 load.place⟩
  let state₂ : State E :=
    { state₁ with pc := state₁.pc + 1, frame := { state₁.frame with regs := regs₂ } }
  let regs₃ := regs₂.set load.dest word
  let state₃ : State E :=
    { state₂ with pc := state₂.pc + 1, frame := { state₂.frame with regs := regs₃ } }
  have atBlock : variant.getBlock state.block = some block := loaded.block ▸ found
  have toFirst : (machine module host variant).Reaches state state₁ := by
    refine reaches_of_eval (.const load.offset (.i64 (BitVec.ofNat 64 load.place))) atBlock ?_ rfl
      (by simp) rfl
    rw [loaded.pc]
    exact fetch 0 (by omega)
  have base : regs₁ (framePtr function) = ⟨.i64, address⟩ :=
    (Regs.set_of_ne _ _ (above _ offsetFresh)).trans loaded.framePtr
  have toSecond : (machine module host variant).Reaches state₁ state₂ := by
    refine reaches_of_eval (.ptrAdd load.addr (framePtr function) load.offset (.ptr .i8)) atBlock
      ?_ rfl (by simp) ?_
    · change block.instructions[state.pc + 1]? = _
      rw [loaded.pc]
      exact fetch 1 (by omega)
    · have index : regs₁ load.offset = ⟨.i64, BitVec.ofNat 64 load.place⟩ := Regs.set_same _ _ _
      change computing state.world (.ok (addrIndex (regs₁ (framePtr function)) (regs₁ load.offset)
        (fieldSize .i8))) = _
      rw [base, index]
      simp [computing, addrIndex, sext, fieldSize]
      rfl
  have pointer : regs₂ load.addr = ⟨.i64, address + BitVec.ofNat 64 load.place⟩ :=
    Regs.set_same _ _ _
  have toThird : (machine module host variant).Reaches state₂ state₃ := by
    refine reaches_of_eval (.load load.dest load.addr load.slot.ty) atBlock ?_ rfl (by simp) ?_
    · change block.instructions[state.pc + 1 + 1]? = _
      rw [loaded.pc]
      exact fetch 2 (by omega)
    · have isLoaded : slotWord state.world.memory address load.slot.ty load.place = .ok word := by
        rw [loaded.world]
        exact isWord
      have evaluated : eval module host (declOf variant
          (.load load.dest load.addr load.slot.ty)) (state₂.frame.site
          (.load load.dest load.addr load.slot.ty)) regs₂
          (.load load.dest load.addr load.slot.ty) state.world =
            computing state.world (slotWord state.world.memory address load.slot.ty load.place) := by
        simp only [eval, pointer]
        rfl
      rw [isLoaded] at evaluated
      exact evaluated
  refine ⟨state₃, (toFirst.trans toSecond).trans toThird, ?_⟩
  have keeps : ∀ reg, reg ∉ load.written → state₃.frame.regs reg = state.frame.regs reg := by
    intro reg absent
    simp only [SlotLoad.written, List.mem_cons, List.not_mem_nil, or_false, not_or] at absent
    change ((state.frame.regs.set _ _).set _ _).set _ _ reg = _
    rw [Regs.set_of_ne _ _ absent.2.2, Regs.set_of_ne _ _ absent.2.1, Regs.set_of_ne _ _ absent.1]
  refine ⟨loaded.block, ?_, loaded.world, loaded.moved, loaded.slots, loaded.env, ?_, ?_⟩
  · change state.pc + 1 + 1 + 1 = _
    rw [loaded.pc, List.length_append]
    simp only [List.length_cons, List.length_nil]
    omega
  · rw [keeps _ ?_]
    · exact loaded.framePtr
    · simp only [SlotLoad.written, List.mem_cons, List.not_mem_nil, or_false, not_or]
      exact ⟨above _ offsetFresh, above _ addrFresh, destAbove⟩
  · intro other member
    rcases List.mem_append.mp member with earlier | last
    · rw [keeps _ ?_]
      · exact loaded.words other earlier
      · have apart := loads_apart
          (fun slot inSlots => resumption.accepted.slot_lt resumption.numbered inSlots)
          resumption.accepted.loads_slots (resumption.accepted.slots_distinct resumption.ssa)
        rw [split] at apart
        exact (List.pairwise_append.mp apart).2.2 other earlier load List.mem_cons_self
    · rw [List.mem_singleton.mp last]
      refine isWord.trans (congrArg _ ?_)
      exact (Regs.set_same _ _ _).symm

variable (module host) in
/-- The prologue runs up to its jump. -/
theorem Resumption.load_all {address : BitVec 64} {first : State E}
    (words : ∀ load ∈ (layoutLoads function result).1, ∃ word,
      slotWord first.world.memory address load.slot.ty load.place = .ok word)
    (before after : List SlotLoad) (split : (layoutLoads function result).1 = before ++ after)
    {state : State E} (loaded : Loaded function address before first state) :
    ∃ next, (machine module host variant).Reaches state next ∧
      Loaded function address (layoutLoads function result).1 first next := by
  induction after generalizing before state with
  | nil =>
      rw [List.append_nil] at split
      exact ⟨state, .refl state, split ▸ loaded⟩
  | cons load rest ih =>
      obtain ⟨word, isWord⟩ := words load (by
        rw [split]
        exact List.mem_append_right _ List.mem_cons_self)
      obtain ⟨middle, toMiddle, loaded'⟩ := resumption.load_one split loaded isWord
      obtain ⟨next, toNext, final⟩ := ih (before ++ [load])
        (by rw [split, List.append_assoc, List.singleton_append]) loaded'
      exact ⟨next, toMiddle.trans toNext, final⟩

variable (module host) in
/-- Entered with the address of a filled frame, the variant gets to the jump at
the end of its prologue with every slot loaded. -/
theorem Resumption.prologue_runs {address : BitVec 64} {frame : Frame} {world : World E}
    {regs : Regs} (filled : FrameFilled result world.memory address regs)
    (isAddress : frame.regs (framePtr function) = ⟨.i64, address⟩) :
    ∃ next, (machine module host variant).Reaches (entryState variant frame world) next ∧
      Loaded function address (layoutLoads function result).1 (entryState variant frame world)
        next ∧
      ∀ load ∈ (layoutLoads function result).1, load.slot.Holds regs (next.frame.regs load.dest) := by
  have held : ∀ load ∈ (layoutLoads function result).1, ∃ word,
      slotWord world.memory address load.slot.ty load.place = .ok word ∧
        load.slot.Holds regs word := by
    intro load inLoads
    refine filled (load.slot, load.place) ?_
    rw [← (loads_spec function result).slots]
    exact List.mem_map_of_mem inLoads
  have start : Loaded function address [] (entryState variant frame world)
      (entryState variant frame world) :=
    ⟨resumption.entryBlock, rfl, rfl, rfl, rfl, rfl, isAddress, by simp⟩
  obtain ⟨next, reaches, loaded⟩ := resumption.load_all module host
    (fun load inLoads => (held load inLoads).imp fun _ => And.left) [] _ rfl start
  refine ⟨next, reaches, loaded, fun load inLoads => ?_⟩
  obtain ⟨word, isWord, holds⟩ := held load inLoads
  have same := (loaded.words load inLoads).symm.trans isWord
  cases same
  exact holds

end Run

end Rayzor.Osr
