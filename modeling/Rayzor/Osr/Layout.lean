import Rayzor.Osr.Frame
import Rayzor.Osr.Region

/-!
Contract: what resuming at a loop header needs, or why it cannot be done.

Owns: loop ordinals, the type a register travels at, `layout` in its strict and
its relaxed form with every rejection, and what an accepted layout says of the
values read in the region.
-/

namespace Rayzor.Osr

open Ir Library Analysis Interp

/-- Why a header cannot be resumed. -/
inductive OsrReject where
  | noSuchHeader
  | isEntryBlock
  | tooManyLiveIns (count : Nat)
  | liveInHasNoLayout
  | liveInTypeUnknown (reg : IrId)
  | unclassifiableValue
  | returnsThroughBuffer
  | regionHasExternalEntry
  deriving DecidableEq

def OSR_MAX_LIVE_INS : Nat := 128

/-- What a probe hands over for one frame slot: the value flowing into a phi of
the header, or a value as it stands. -/
inductive OsrParam where
  | headerPhi (phiDest : IrId)
  | live (reg : IrId)
  deriving DecidableEq

def OsrParam.reg : OsrParam → IrId
  | headerPhi phiDest => phiDest
  | live reg => reg

structure OsrSlot where
  param : OsrParam
  ty : IrType

/-- The slots stand in frame order, the header's phis first. -/
structure OsrLayout where
  header : IrBlockId
  loopOrdinal : Nat
  slots : List OsrSlot
  phiCount : Nat
  frame : OsrFrame

/-- The targets of back edges: edges to a block that dominates their source. -/
def findLoopHeaders (function : IrFunction) : List IrBlockId :=
  let domtree := DominatorTree.compute function
  let targets := (function.cfg.edges.filter fun edge => domtree.dominates edge.2 edge.1).map
    Prod.snd
  targets.eraseDups.mergeSort fun left right => decide (left ≤ right)

def loopOrdinalOf (function : IrFunction) (header : IrBlockId) : Option Nat :=
  (findLoopHeaders function).idxOf? header

def constantType : IrValue → Option IrType
  | .bool _ => some .bool
  | .i8 _ => some .i8
  | .i16 _ => some .i16
  | .i32 _ => some .i32
  | .i64 _ => some .i64
  | .u8 _ => some .u8
  | .u16 _ => some .u16
  | .u32 _ => some .u32
  | .u64 _ => some .u64
  | .f32 _ => some .f32
  | .f64 _ => some .f64
  | .string _ => some .string
  | .null | .function _ => some (.ptr .void)
  | _ => none

def recordedType (function : IrFunction) (reg : IrId) : Option IrType :=
  function.registerTypes.get? reg <|> (function.locals.get? reg).map (·.ty)

/-- The recorded type, or what the definition produces, through copies. -/
def valueTypeWithin (function : IrFunction) (defs : OrdMap IrId Definition) :
    Nat → IrId → Option IrType
  | 0, _ => none
  | fuel + 1, reg =>
      match recordedType function reg with
      | some ty => some ty
      | none =>
          match defs.get? reg with
          | none => none
          | some (.phi ty) => some ty
          | some (.inst inst) =>
              match inst with
              | .copy _ src | .move _ src | .borrowImmutable _ src | .borrowMutable _ src =>
                  valueTypeWithin function defs fuel src
              | .ssaBarrier _ _ ty | .undef _ ty | .load _ _ ty | .bitCast _ _ ty
              | .cast _ _ _ ty => some ty
              | .alloc _ ty _ => some (.ptr ty)
              | .cmp _ _ _ _ => some .bool
              | .const _ value => constantType value
              | .functionRef _ _ | .makeClosure _ _ _ | .clone _ _ => some (.ptr .void)
              | _ => none

def valueType (function : IrFunction) (reg : IrId) : Option IrType :=
  valueTypeWithin function (definitions function) 16 reg

/-- A resume variant makes do with what the definition produces. -/
def slotType (function : IrFunction) (relaxed : Bool) (reg : IrId) : Option IrType :=
  if relaxed then valueType function reg else recordedType function reg

theorem slotType_of_recorded {function : IrFunction} {relaxed : Bool} {reg : IrId} {ty : IrType}
    (recorded : function.registerTypes.get? reg = some ty) :
    slotType function relaxed reg = some ty := by
  have isRecorded : recordedType function reg = some ty := by
    rw [recordedType, recorded]
    rfl
  unfold slotType
  split_ifs
  · simp only [valueType, valueTypeWithin, isRecorded]
  · exact isRecorded

/-- Add a slot for a value that is read, unless it has one or needs none. -/
def consider (survey : Survey) (slots : List OsrSlot) (use : IrId × IrBlockId) :
    Except OsrReject (List OsrSlot) :=
  if slots.any fun slot => slot.param.reg == use.1 then .ok slots
  else match survey.needsSlot use.1 use.2 with
    | none => .error .unclassifiableValue
    | some false => .ok slots
    | some true =>
        match slotType survey.function survey.relaxed use.1 with
        | none => .error (.liveInTypeUnknown use.1)
        | some ty =>
            if frameSizeOf ty = 0 then .error .liveInHasNoLayout
            else .ok (slots ++ [{ param := .live use.1, ty }])

/-- A block that leads back to the header, other than the header, is also
entered from outside the region. -/
def hasExternalEntry (survey : Survey) : Bool :=
  survey.cycle.any fun id => id != survey.header &&
    (predecessorsOf survey.function.cfg id).any fun pred =>
      !survey.region.contains pred && pred != survey.header

def phiSlots (block : IrBasicBlock) : List OsrSlot :=
  block.phiNodes.map fun phi => { param := .headerPhi phi.dest, ty := phi.ty }

def layout (function : IrFunction) (header : IrBlockId) (relaxed : Bool) :
    Except OsrReject OsrLayout :=
  match function.getBlock header with
  | none => .error .noSuchHeader
  | some headerBlock =>
      if header = function.cfg.entryBlock then .error .isEntryBlock
      else if function.signature.usesSret then .error .returnsThroughBuffer
      else do
        let survey := survey function header relaxed
        let slots ← (regionUses function survey.region).foldlM (consider survey)
          (phiSlots headerBlock)
        if OSR_MAX_LIVE_INS < slots.length then .error (.tooManyLiveIns slots.length)
        else if !relaxed && hasExternalEntry survey then .error .regionHasExternalEntry
        else .ok {
            header
            loopOrdinal := (loopOrdinalOf function header).getD (2 ^ 64 - 1)
            slots
            phiCount := headerBlock.phiNodes.length
            frame := OsrFrame.forTypes (slots.map (·.ty))
          }

def osrLayout (function : IrFunction) (header : IrBlockId) : Except OsrReject OsrLayout :=
  layout function header false

def resumeLayout (function : IrFunction) (header : IrBlockId) : Except OsrReject OsrLayout :=
  layout function header true

/-- The slots cover what was read so far, and each live one was asked for. -/
structure Covers (survey : Survey) (first lives : List OsrSlot) (uses : List (IrId × IrBlockId)) :
    Prop where
  handed : ∀ use ∈ uses, use.1 ∈ (first ++ lives).map (·.param.reg) ∨
    survey.needsSlot use.1 use.2 = some false
  asked : ∀ slot ∈ lives, ∃ use ∈ uses, slot.param = .live use.1 ∧
    survey.needsSlot use.1 use.2 = some true ∧
    slotType survey.function survey.relaxed use.1 = some slot.ty ∧ 0 < frameSizeOf slot.ty
  distinct : (first.map (·.param.reg)).Nodup → ((first ++ lives).map (·.param.reg)).Nodup

theorem covers_consider {survey : Survey} {first lives slots' : List OsrSlot}
    {uses : List (IrId × IrBlockId)} {use : IrId × IrBlockId}
    (covers : Covers survey first lives uses)
    (considered : consider survey (first ++ lives) use = .ok slots') :
    ∃ lives', slots' = first ++ lives' ∧ Covers survey first lives' (uses ++ [use]) := by
  have askedBefore : ∀ slot ∈ lives, ∃ use' ∈ uses ++ [use],
      slot.param = .live use'.1 ∧ survey.needsSlot use'.1 use'.2 = some true ∧
      slotType survey.function survey.relaxed use'.1 = some slot.ty ∧ 0 < frameSizeOf slot.ty := by
    intro slot member
    obtain ⟨use', listed, rest⟩ := covers.asked slot member
    exact ⟨use', List.mem_append_left _ listed, rest⟩
  have unchanged : (use.1 ∈ (first ++ lives).map (·.param.reg) ∨
      survey.needsSlot use.1 use.2 = some false) → Covers survey first lives (uses ++ [use]) := by
    intro last
    refine ⟨fun other member => ?_, askedBefore, covers.distinct⟩
    rcases List.mem_append.mp member with earlier | isLast
    · exact covers.handed other earlier
    · rw [List.mem_singleton.mp isLast]
      exact last
  unfold consider at considered
  split_ifs at considered with listed
  · cases considered
    obtain ⟨slot, member, same⟩ := List.any_eq_true.mp listed
    exact ⟨lives, rfl, unchanged (Or.inl (List.mem_map.mpr ⟨slot, member, beq_iff_eq.mp same⟩))⟩
  · split at considered
    · cases considered
    · rename_i computed
      cases considered
      exact ⟨lives, rfl, unchanged (Or.inr computed)⟩
    · rename_i needed
      split at considered
      · cases considered
      · rename_i ty typed
        split_ifs at considered with sized
        cases considered
        refine ⟨lives ++ [{ param := .live use.1, ty }], by simp, ?_, ?_, ?_⟩
        · intro other member
          rw [← List.append_assoc, List.map_append, List.mem_append]
          rcases List.mem_append.mp member with earlier | isLast
          · exact (covers.handed other earlier).imp_left Or.inl
          · rw [List.mem_singleton.mp isLast]
            exact Or.inl (Or.inr (by simp [OsrParam.reg]))
        · intro slot member
          rcases List.mem_append.mp member with earlier | isLast
          · exact askedBefore slot earlier
          · rw [List.mem_singleton] at isLast
            subst isLast
            exact ⟨use, List.mem_append_right _ (List.mem_singleton_self _), rfl, needed,
              typed, Nat.pos_of_ne_zero sized⟩
        · intro distinct
          rw [← List.append_assoc, List.map_append]
          refine (covers.distinct distinct).append (List.nodup_singleton _) ?_
          rw [List.map_singleton, List.disjoint_singleton]
          intro member
          obtain ⟨slot, inside, same⟩ := List.mem_map.mp member
          exact listed (List.any_eq_true.mpr ⟨slot, inside, beq_iff_eq.mpr same⟩)

theorem covers_foldlM {survey : Survey} {first lives slots' : List OsrSlot}
    {uses rest : List (IrId × IrBlockId)} (covers : Covers survey first lives uses)
    (folded : rest.foldlM (consider survey) (first ++ lives) = .ok slots') :
    ∃ lives', slots' = first ++ lives' ∧ Covers survey first lives' (uses ++ rest) := by
  induction rest generalizing uses lives with
  | nil =>
      cases folded
      exact ⟨lives, rfl, by rwa [List.append_nil]⟩
  | cons use rest ih =>
      rw [List.foldlM_cons] at folded
      obtain ⟨middle, considered, folded⟩ := bind_eq_ok.mp folded
      obtain ⟨more, rfl, next⟩ := covers_consider covers considered
      obtain ⟨all, same, final⟩ := ih next folded
      exact ⟨all, same, by rwa [List.append_assoc, List.singleton_append] at final⟩

structure Accepted (function : IrFunction) (header : IrBlockId) (relaxed : Bool)
    (result : OsrLayout) (headerBlock : IrBasicBlock) (lives : List OsrSlot) : Prop where
  isHeader : result.header = header
  isBlock : function.getBlock header = some headerBlock
  inner : header ≠ function.cfg.entryBlock
  noBuffer : function.signature.usesSret = false
  slots : result.slots = phiSlots headerBlock ++ lives
  covers : Covers (survey function header relaxed) (phiSlots headerBlock) lives
    (regionUses function (blocksReachableFrom function header))
  framed : result.frame = OsrFrame.forTypes (result.slots.map (·.ty))

theorem accepted_of_layout {function : IrFunction} {header : IrBlockId} {relaxed : Bool}
    {result : OsrLayout} (laidOut : layout function header relaxed = .ok result) :
    ∃ headerBlock lives, Accepted function header relaxed result headerBlock lives := by
  unfold layout at laidOut
  cases isBlock : function.getBlock header with
  | none =>
      rw [isBlock] at laidOut
      cases laidOut
  | some headerBlock =>
      simp only [isBlock] at laidOut
      split at laidOut
      · cases laidOut
      rename_i inner
      split at laidOut
      · cases laidOut
      rename_i noBuffer
      obtain ⟨slots, folded, laidOut⟩ := bind_eq_ok.mp laidOut
      split_ifs at laidOut
      cases laidOut
      have start : Covers (survey function header relaxed) (phiSlots headerBlock) [] [] :=
        ⟨by simp, by simp, by simp⟩
      rw [← List.append_nil (phiSlots headerBlock)] at folded
      obtain ⟨lives, same, covers⟩ := covers_foldlM start folded
      exact ⟨headerBlock, lives, rfl, isBlock, inner, by simpa using noBuffer, same, covers, rfl⟩

end Rayzor.Osr
