import Rayzor.Osr.Variant
import Rayzor.Ssa.Predecessors

/-!
Contract: what `carryRedefined` makes of each block.
-/

namespace Rayzor.Osr

open Ir Library Analysis Interp

variable {carrier : Carrier} {done : List Redefined} {value : Redefined} {id : IrBlockId}

/-- The register an operand of a block, or of an edge out of it, is read from. -/
def Carrier.rename (carrier : Carrier) (done : List Redefined) (at_ : IrBlockId) (reg : IrId) :
    IrId :=
  ((done.find? fun value => value.reg == reg).bind (carrier.reaching · at_)).getD reg

def renamePhi (rename : IrBlockId → IrId → IrId) (phi : IrPhiNode) : IrPhiNode :=
  { phi with incoming := phi.incoming.map fun entry => (entry.1, rename entry.1 entry.2) }

def Carrier.mergePhi (carrier : Carrier) (value : Redefined) : IrPhiNode where
  dest := value.phi
  incoming := (carrier.entry, value.arrived) ::
    ((predecessorsOf carrier.variant.cfg carrier.header).filter (· != carrier.entry)).map
      fun pred => (pred, (carrier.reaching value pred).getD value.reg)
  ty := value.ty

def Carrier.mergePhis (carrier : Carrier) (done : List Redefined) (id : IrBlockId) :
    List IrPhiNode :=
  if id = carrier.header then done.map carrier.mergePhi else []

/-- The values to carry are different ones, and none has a name that carrying
introduces. -/
structure Apart (carried : List Redefined) : Prop where
  regs : (carried.map (·.reg)).Nodup
  phis : ∀ value ∈ carried, ∀ other ∈ carried, value.phi ≠ other.reg
  arrivals : ∀ value ∈ carried, ∀ other ∈ carried, value.arrived ≠ other.reg

/-- A block with its operands renamed. No operand that should be renamed is of a
kind the rewrite leaves alone, and each has one register that reaches it. -/
structure CarriedBlock (carrier : Carrier) (done : List Redefined) (id : IrBlockId)
    (block block' : IrBasicBlock) : Prop where
  instructions : block'.instructions =
    block.instructions.map (·.renameUses (carrier.rename done id))
  kept : ∀ inst ∈ block.instructions, inst.operandsKept = true → ∀ reg ∈ inst.uses,
    carrier.rename done id reg = reg
  terminator : block'.terminator = block.terminator.renameUses (carrier.rename done id)
  reached : ∀ value ∈ done, reads block value.reg = true → (carrier.reaching value id).isSome
  phis : block'.phiNodes = block.phiNodes.map (renamePhi (carrier.rename done)) ++
    carrier.mergePhis done id
  phisReached : ∀ phi ∈ block.phiNodes, ∀ entry ∈ phi.incoming, ∀ value ∈ done,
    value.reg = entry.2 → (carrier.reaching value entry.1).isSome
  predecessors : block'.predecessors = block.predecessors

theorem Apart.left {rest : List Redefined} (apart : Apart (done ++ rest)) : Apart done where
  regs := by
    have distinct := apart.regs
    rw [List.map_append] at distinct
    exact distinct.of_append_left
  phis value member other inside :=
    apart.phis value (List.mem_append_left _ member) other (List.mem_append_left _ inside)
  arrivals value member other inside :=
    apart.arrivals value (List.mem_append_left _ member) other (List.mem_append_left _ inside)

theorem rename_of_notMem {at_ : IrBlockId} {reg : IrId} (absent : reg ∉ done.map (·.reg)) :
    carrier.rename done at_ reg = reg := by
  have none : done.find? (fun value => value.reg == reg) = none := by
    refine List.find?_eq_none.mpr fun value member same => ?_
    exact absent (List.mem_map.mpr ⟨value, member, beq_iff_eq.mp same⟩)
  rw [Carrier.rename, none]
  rfl

theorem rename_of_mem {at_ : IrBlockId} (apart : Apart done) (member : value ∈ done) :
    carrier.rename done at_ value.reg = (carrier.reaching value at_).getD value.reg := by
  have chosen : done.find? (fun other => other.reg == value.reg) = some value := by
    cases found : done.find? fun other => other.reg == value.reg with
    | none => exact absurd (List.find?_eq_none.mp found value member) (by simp)
    | some other =>
        have same : other.reg = value.reg := beq_iff_eq.mp (List.find?_some found :)
        rw [List.inj_on_of_nodup_map apart.regs (List.mem_of_find?_eq_some found) member same]
  rw [Carrier.rename, chosen]
  rfl

theorem rename_append_self {at_ : IrBlockId} (absent : value.reg ∉ done.map (·.reg)) :
    carrier.rename (done ++ [value]) at_ value.reg =
      (carrier.reaching value at_).getD value.reg := by
  have none : done.find? (fun other => other.reg == value.reg) = none := by
    refine List.find?_eq_none.mpr fun other member same => ?_
    exact absent (List.mem_map.mpr ⟨other, member, beq_iff_eq.mp same⟩)
  rw [Carrier.rename, List.find?_append, none]
  simp

theorem rename_append_of_ne {at_ : IrBlockId} {reg : IrId} (different : reg ≠ value.reg) :
    carrier.rename (done ++ [value]) at_ reg = carrier.rename done at_ reg := by
  have none : [value].find? (fun other => other.reg == reg) = none := by
    simp [Ne.symm different]
  rw [Carrier.rename, List.find?_append, none, Option.or_none]
  rfl

theorem reaching_eq_some {at_ : IrBlockId} {reg : IrId}
    (reaches : carrier.reaching value at_ = some reg) : reg = value.reg ∨ reg = value.phi := by
  unfold Carrier.reaching at reaches
  split_ifs at reaches <;> cases reaches
  · exact Or.inl rfl
  · exact Or.inr rfl

/-- Renaming never gives a value that is still to be carried. -/
theorem rename_ne {at_ : IrBlockId} {reg : IrId} (apart : Apart (done ++ [value]))
    (different : reg ≠ value.reg) : carrier.rename done at_ reg ≠ value.reg := by
  have last : value ∈ done ++ [value] := List.mem_append_right _ (List.mem_singleton_self _)
  unfold Carrier.rename
  cases chosen : done.find? fun other => other.reg == reg with
  | none => exact different
  | some other =>
      have member := List.mem_append_left [value] (List.mem_of_find?_eq_some chosen)
      have same : other.reg = reg := beq_iff_eq.mp (List.find?_some chosen :)
      cases reaches : carrier.reaching other at_ with
      | none => simpa [reaches] using different
      | some reg' =>
          simp only [Option.bind_some, reaches, Option.getD_some]
          rcases reaching_eq_some reaches with rfl | rfl
          · rw [same]
            exact different
          · exact apart.phis other member value last

theorem Apart.fresh (apart : Apart (done ++ [value])) : value.reg ∉ done.map (·.reg) := by
  have distinct := apart.regs
  rw [List.map_append, List.nodup_append] at distinct
  intro member
  exact distinct.2.2 value.reg member value.reg (by simp) rfl

theorem renameUses_congr {term : IrTerminator} {first second : IrId → IrId}
    (agree : ∀ reg ∈ terminatorUses term, first reg = second reg) :
    term.renameUses first = term.renameUses second := by
  cases term
  all_goals simp only [terminatorUses, List.mem_cons, List.not_mem_nil, or_false, forall_eq,
    Option.mem_toList] at agree
  case ret value =>
    cases value with
    | none => rfl
    | some reg => simp only [IrTerminator.renameUses, Option.map_some, agree reg rfl]
  all_goals simp only [IrTerminator.renameUses, agree]

@[simp] theorem terminatorUses_renameUses (replace : IrId → IrId) (term : IrTerminator) :
    terminatorUses (term.renameUses replace) = (terminatorUses term).map replace := by
  cases term with
  | ret value => cases value <;> rfl
  | _ => rfl

theorem reads_iff {block : IrBasicBlock} {reg : IrId} :
    reads block reg = true ↔
      (∃ inst ∈ block.instructions, reg ∈ inst.uses) ∨ reg ∈ terminatorUses block.terminator := by
  simp [reads]

theorem reads_renamed {block : IrBasicBlock} {rename : IrId → IrId} {reg : IrId}
    (same : rename reg = reg) (isRead : reads block reg = true) :
    reads { block with
      instructions := block.instructions.map (·.renameUses rename)
      terminator := block.terminator.renameUses rename } reg = true := by
  rw [reads_iff] at isRead ⊢
  rcases isRead with ⟨inst, member, used⟩ | used
  · refine Or.inl ⟨inst.renameUses rename, List.mem_map_of_mem member, ?_⟩
    cases keeps : inst.operandsKept with
    | true =>
        rw [IrInstruction.uses_renameUses_of_kept rename inst keeps]
        exact used
    | false =>
        rw [IrInstruction.uses_renameUses rename inst keeps]
        exact List.mem_map.mpr ⟨reg, used, same⟩
  · refine Or.inr ?_
    rw [terminatorUses_renameUses]
    exact List.mem_map.mpr ⟨reg, used, same⟩

theorem reachingOrReject_eq_ok {at_ : IrBlockId} {reg : IrId} :
    carrier.reachingOrReject value at_ = .ok reg ↔ carrier.reaching value at_ = some reg := by
  unfold Carrier.reachingOrReject
  cases carrier.reaching value at_ <;> simp

theorem carryPhi_spec {phi phi' : IrPhiNode} (apart : Apart (done ++ [value]))
    (carried : carrier.carryPhi value (renamePhi (carrier.rename done) phi) = .ok phi') :
    phi' = renamePhi (carrier.rename (done ++ [value])) phi ∧
      ∀ entry ∈ phi.incoming, value.reg = entry.2 → (carrier.reaching value entry.1).isSome := by
  obtain ⟨incoming, collected, same⟩ := bind_eq_ok.mp carried
  cases same
  rw [mapM_eq_ok] at collected
  simp only [renamePhi, List.forall₂_map_left_iff] at collected ⊢
  have perEntry : ∀ {entry entry' : IrBlockId × IrId},
      (if carrier.rename done entry.1 entry.2 = value.reg then
        (carrier.reachingOrReject value entry.1).map (entry.1, ·)
      else .ok (entry.1, carrier.rename done entry.1 entry.2)) = .ok entry' →
      entry' = (entry.1, carrier.rename (done ++ [value]) entry.1 entry.2) ∧
        (value.reg = entry.2 → (carrier.reaching value entry.1).isSome) := by
    intro entry entry' carried
    by_cases here : entry.2 = value.reg
    · have unnamed : carrier.rename done entry.1 entry.2 = value.reg := by
        rw [here]
        exact rename_of_notMem apart.fresh
      rw [if_pos unnamed] at carried
      cases chosen : carrier.reachingOrReject value entry.1 with
      | error reject =>
          rw [chosen] at carried
          cases carried
      | ok reg =>
          rw [chosen] at carried
          cases carried
          have reaches := reachingOrReject_eq_ok.mp chosen
          refine ⟨?_, fun _ => by rw [reaches]; rfl⟩
          rw [here, rename_append_self apart.fresh, reaches]
          rfl
    · rw [if_neg (rename_ne apart here)] at carried
      cases carried
      rw [rename_append_of_ne here]
      exact ⟨rfl, fun same => absurd same.symm here⟩
  constructor
  · refine congrArg (fun incoming => ({ phi with incoming } : IrPhiNode)) ?_
    refine List.forall₂_eq_eq_eq ▸ (List.forall₂_map_right_iff.mpr ?_)
    exact collected.flip.imp fun entry' entry carried => (perEntry carried).1
  · intro entry member
    obtain ⟨index, inside, rfl⟩ := List.mem_iff_getElem.mp member
    exact (perEntry (collected.get inside (collected.length_eq ▸ inside))).2

theorem carryPhi_mergePhi {earlier : Redefined} (apart : Apart (done ++ [value]))
    (member : earlier ∈ done) :
    carrier.carryPhi value (carrier.mergePhi earlier) = .ok (carrier.mergePhi earlier) := by
  have inAll := List.mem_append_left [value] member
  have last : value ∈ done ++ [value] := List.mem_append_right _ (List.mem_singleton_self _)
  have regApart : earlier.reg ≠ value.reg := by
    intro same
    exact apart.fresh (same ▸ List.mem_map_of_mem member)
  have untouched : ∀ entry ∈ (carrier.mergePhi earlier).incoming, entry.2 ≠ value.reg := by
    intro entry listed
    rcases List.mem_cons.mp listed with rfl | listed
    · exact apart.arrivals earlier inAll value last
    · obtain ⟨pred, -, rfl⟩ := List.mem_map.mp listed
      cases reaches : carrier.reaching earlier pred with
      | none => simpa [reaches] using regApart
      | some reg =>
          rw [Option.getD_some]
          rcases reaching_eq_some reaches with rfl | rfl
          · exact regApart
          · exact apart.phis earlier inAll value last
  refine bind_eq_ok.mpr ⟨(carrier.mergePhi earlier).incoming, ?_, rfl⟩
  rw [mapM_eq_ok]
  refine List.forall₂_same.mpr fun entry listed => ?_
  rw [if_neg (untouched entry listed)]

theorem carryPhis_spec {phis phis' : List IrPhiNode} (apart : Apart (done ++ [value]))
    (carried : (phis.map (renamePhi (carrier.rename done)) ++ carrier.mergePhis done id).mapM
      (carrier.carryPhi value) = .ok phis') :
    phis' = phis.map (renamePhi (carrier.rename (done ++ [value]))) ++ carrier.mergePhis done id ∧
      ∀ phi ∈ phis, ∀ entry ∈ phi.incoming, value.reg = entry.2 →
        (carrier.reaching value entry.1).isSome := by
  rw [List.mapM_append] at carried
  obtain ⟨renamed, first, carried⟩ := bind_eq_ok.mp carried
  obtain ⟨merges, second, same⟩ := bind_eq_ok.mp carried
  cases same
  have unchanged : (carrier.mergePhis done id).mapM (carrier.carryPhi value) =
      .ok (carrier.mergePhis done id) := by
    rw [mapM_eq_ok]
    refine List.forall₂_same.mpr fun phi member => ?_
    unfold Carrier.mergePhis at member
    split_ifs at member
    · obtain ⟨earlier, inDone, rfl⟩ := List.mem_map.mp member
      exact carryPhi_mergePhi apart inDone
    · cases member
  rw [unchanged] at second
  cases second
  rw [mapM_eq_ok, List.forall₂_map_left_iff] at first
  constructor
  · refine congrArg (· ++ carrier.mergePhis done id) ?_
    refine List.forall₂_eq_eq_eq ▸ (List.forall₂_map_right_iff.mpr ?_)
    exact first.flip.imp fun _ _ carried => (carryPhi_spec apart carried).1
  · intro phi member
    obtain ⟨index, inside, rfl⟩ := List.mem_iff_getElem.mp member
    exact (carryPhi_spec apart (first.get inside (first.length_eq ▸ inside))).2

/-- What the header gets besides, once a value is carried. -/
def Carrier.withMerge (carrier : Carrier) (value : Redefined) (id : IrBlockId)
    (block : IrBasicBlock) : IrBasicBlock :=
  if id = carrier.header then
    { block with phiNodes := block.phiNodes ++ [carrier.mergePhi value] }
  else block

theorem mergePhis_append : carrier.mergePhis (done ++ [value]) id =
    carrier.mergePhis done id ++ if id = carrier.header then [carrier.mergePhi value] else [] := by
  unfold Carrier.mergePhis
  split_ifs <;> simp

theorem carriedBlock_step {block middle after : IrBasicBlock}
    (apart : Apart (done ++ [value])) (inner : id ≠ carrier.entry)
    (atBlock : carrier.reaching value value.block = some value.reg)
    (before : CarriedBlock carrier done id block middle)
    (carried : carrier.carryBlock value id middle = .ok after) :
    CarriedBlock carrier (done ++ [value]) id block (carrier.withMerge value id after) := by
  unfold Carrier.carryBlock at carried
  rw [if_neg inner] at carried
  obtain ⟨phis, phisCarried, carried⟩ := bind_eq_ok.mp carried
  rw [before.phis] at phisCarried
  obtain ⟨renamed, valueReached⟩ := carryPhis_spec apart phisCarried
  have phisReached : ∀ phi ∈ block.phiNodes, ∀ entry ∈ phi.incoming, ∀ other ∈ done ++ [value],
      other.reg = entry.2 → (carrier.reaching other entry.1).isSome := by
    intro phi member entry listed other inAll same
    rcases List.mem_append.mp inAll with earlier | last
    · exact before.phisReached phi member entry listed other earlier same
    · rw [List.mem_singleton.mp last] at same ⊢
      exact valueReached phi member entry listed same
  -- the rest of the block is what one of the four ways of leaving it alone or rewriting it gives
  have assemble : ∀ {instructions terminator}, instructions = block.instructions.map
        (·.renameUses (carrier.rename (done ++ [value]) id)) →
      (∀ inst ∈ block.instructions, inst.operandsKept = true → ∀ reg ∈ inst.uses,
        carrier.rename (done ++ [value]) id reg = reg) →
      terminator = block.terminator.renameUses (carrier.rename (done ++ [value]) id) →
      (reads block value.reg = true → (carrier.reaching value id).isSome) →
      CarriedBlock carrier (done ++ [value]) id block (carrier.withMerge value id
        { middle with phiNodes := phis, instructions, terminator }) := by
    intro instructions terminator sameInstructions kept sameTerminator reached
    refine ⟨?_, kept, ?_, ?_, ?_, phisReached, ?_⟩
    · unfold Carrier.withMerge
      split_ifs <;> exact sameInstructions
    · unfold Carrier.withMerge
      split_ifs <;> exact sameTerminator
    · intro other inAll isRead
      rcases List.mem_append.mp inAll with earlier | last
      · exact before.reached other earlier isRead
      · rw [List.mem_singleton.mp last] at isRead ⊢
        exact reached isRead
    · rw [mergePhis_append, ← List.append_assoc, ← renamed]
      unfold Carrier.withMerge
      split_ifs <;> simp
    · unfold Carrier.withMerge
      split_ifs <;> exact before.predecessors
  -- where the renaming does not change for the value, it does not change at all
  have sameRename : carrier.rename (done ++ [value]) id value.reg = value.reg →
      carrier.rename (done ++ [value]) id = carrier.rename done id := by
    intro same
    funext reg
    by_cases here : reg = value.reg
    · rw [here, same, rename_of_notMem apart.fresh]
    · exact rename_append_of_ne here
  have unchanged : carrier.rename (done ++ [value]) id value.reg = value.reg →
      (reads block value.reg = true → (carrier.reaching value id).isSome) →
      CarriedBlock carrier (done ++ [value]) id block
        (carrier.withMerge value id { middle with phiNodes := phis }) := by
    intro same reached
    have kept := before.kept
    rw [← sameRename same] at kept
    exact assemble (by rw [sameRename same, before.instructions]) kept
      (by rw [sameRename same, before.terminator]) reached
  dsimp only at carried
  split_ifs at carried with leftAlone
  · cases carried
    rcases leftAlone with here | unread
    · have reaches : carrier.reaching value id = some value.reg := here ▸ atBlock
      refine unchanged ?_ fun _ => by rw [reaches]; rfl
      rw [rename_append_self apart.fresh, reaches]
      rfl
    · have notRead : reads block value.reg = false := by
        by_contra isRead
        rw [Bool.not_eq_false] at isRead
        have keeps : carrier.rename done id value.reg = value.reg := rename_of_notMem apart.fresh
        have shows := reads_renamed keeps isRead
        rw [← before.instructions, ← before.terminator] at shows
        have same : reads { middle with phiNodes := phis } value.reg = true := shows
        rw [unread] at same
        cases same
      have differs : ∀ reg, ((∃ inst ∈ block.instructions, reg ∈ inst.uses) ∨
          reg ∈ terminatorUses block.terminator) →
          carrier.rename (done ++ [value]) id reg = carrier.rename done id reg := by
        intro reg isRead
        refine rename_append_of_ne fun same => ?_
        rw [← same, ← Bool.not_eq_true, reads_iff] at notRead
        exact notRead isRead
      refine assemble ?_ ?_ ?_ fun isRead => absurd (notRead ▸ isRead) (by simp)
      · rw [before.instructions]
        refine List.map_congr_left fun inst member => ?_
        exact IrInstruction.renameUses_congr fun reg used =>
          (differs reg (Or.inl ⟨inst, member, used⟩)).symm
      · intro inst member keeps reg used
        rw [differs reg (Or.inl ⟨inst, member, used⟩)]
        exact before.kept inst member keeps reg used
      · rw [before.terminator]
        exact renameUses_congr fun reg used => (differs reg (Or.inr used)).symm
  · obtain ⟨replacement, chosen, carried⟩ := bind_eq_ok.mp carried
    have reaches := reachingOrReject_eq_ok.mp chosen
    have renamesTo : carrier.rename (done ++ [value]) id value.reg = replacement := by
      rw [rename_append_self apart.fresh, reaches]
      rfl
    split_ifs at carried with same stale
    · cases carried
      exact unchanged (renamesTo.trans same) fun _ => by rw [reaches]; rfl
    · cases carried
      -- rewriting after the earlier renamings is renaming once
      have single : ∀ reg, ((OrdMap.empty.insert value.reg replacement).get? reg).getD reg =
          if reg = value.reg then replacement else reg := by
        intro reg
        rw [OrdMap.get?_insert]
        split_ifs <;> rfl
      have composed : (fun reg =>
            ((OrdMap.empty.insert value.reg replacement).get? reg).getD reg) ∘
          carrier.rename done id = carrier.rename (done ++ [value]) id := by
        funext reg
        rw [Function.comp_apply, single]
        by_cases here : reg = value.reg
        · rw [here, rename_of_notMem apart.fresh, if_pos rfl, renamesTo]
        · rw [if_neg (rename_ne apart here), rename_append_of_ne here]
      refine assemble ?_ ?_ ?_ fun _ => by rw [reaches]; rfl
      · dsimp only
        rw [before.instructions, List.map_map]
        refine List.map_congr_left fun inst _ => ?_
        rw [Function.comp_apply, IrInstruction.replaceUses, IrInstruction.renameUses_comp, composed]
      · intro inst member keeps reg used
        have notValue : reg ≠ value.reg := by
          rintro rfl
          refine stale (reads_iff.mpr (Or.inl ⟨inst, ?_, used⟩))
          dsimp only [replaceUses]
          rw [before.instructions, List.map_map]
          refine List.mem_map.mpr ⟨inst, member, ?_⟩
          rw [Function.comp_apply, IrInstruction.uses_renameUses_of_kept _ inst keeps,
            IrInstruction.replaceUses, IrInstruction.uses_renameUses_of_kept _ inst keeps]
        rw [rename_append_of_ne notValue]
        exact before.kept inst member keeps reg used
      · dsimp only
        rw [before.terminator, IrTerminator.replaceUses, IrTerminator.renameUses_comp, composed]

theorem reaching_self (value : Redefined) :
    carrier.reaching value value.block = some value.reg := by
  simp [Carrier.reaching, DominatorTree.dominates]

def Carrier.headerPreds (carrier : Carrier) : List IrBlockId :=
  (predecessorsOf carrier.variant.cfg carrier.header).filter (· != carrier.entry)

theorem mergedIncoming_spec {incoming : List (IrBlockId × IrId)}
    (merged : carrier.mergedIncoming value = .ok incoming) :
    incoming = (carrier.mergePhi value).incoming ∧
      ∀ pred ∈ carrier.headerPreds, (carrier.reaching value pred).isSome := by
  obtain ⟨others, collected, same⟩ := bind_eq_ok.mp merged
  cases same
  rw [mapM_eq_ok] at collected
  have perPred : ∀ {pred : IrBlockId} {entry : IrBlockId × IrId},
      (carrier.reachingOrReject value pred).map (pred, ·) = .ok entry →
      entry = (pred, (carrier.reaching value pred).getD value.reg) ∧
        (carrier.reaching value pred).isSome := by
    intro pred entry chosen
    cases found : carrier.reachingOrReject value pred with
    | error reject =>
        rw [found] at chosen
        cases chosen
    | ok reg =>
        rw [found] at chosen
        cases chosen
        rw [reachingOrReject_eq_ok.mp found]
        exact ⟨rfl, rfl⟩
  constructor
  · refine congrArg ((carrier.entry, value.arrived) :: ·) ?_
    refine List.forall₂_eq_eq_eq ▸ (List.forall₂_map_right_iff.mpr ?_)
    exact collected.flip.imp fun _ _ chosen => (perPred chosen).1
  · intro pred member
    obtain ⟨index, inside, rfl⟩ := List.mem_iff_getElem.mp member
    exact (perPred (collected.get inside (collected.length_eq ▸ inside))).2

structure CarriedTo (carrier : Carrier) (done : List Redefined) (variant : IrFunction) : Prop where
  rest : variant =
    { carrier.variant with cfg := { carrier.variant.cfg with blocks := variant.cfg.blocks } }
  blocks : ∀ {id block}, carrier.variant.getBlock id = some block →
    ∃ block', variant.getBlock id = some block' ∧ (id = carrier.entry → block' = block) ∧
      (id ≠ carrier.entry → CarriedBlock carrier done id block block')
  only : ∀ {id block'}, variant.getBlock id = some block' →
    ∃ block, carrier.variant.getBlock id = some block
  merges : ∀ value ∈ done, ∀ pred ∈ carrier.headerPreds, (carrier.reaching value pred).isSome

theorem carriedTo_nil : CarriedTo carrier [] carrier.variant := by
  refine ⟨rfl, ?_, fun found => ⟨_, found⟩, by simp⟩
  intro id block found
  refine ⟨block, found, fun _ => rfl, fun _ => ?_⟩
  have unnamed : ∀ at_, carrier.rename [] at_ = fun reg => reg := fun at_ => rfl
  have noMerges : carrier.mergePhis [] id = [] := by simp [Carrier.mergePhis]
  refine ⟨?_, fun _ _ _ _ _ => rfl, ?_, by simp, ?_, by simp, rfl⟩
  · simp [unnamed]
  · simp [unnamed]
  · have samePhi : renamePhi (carrier.rename []) = fun phi => phi := by
      funext phi
      simp [renamePhi, unnamed]
    rw [samePhi, noMerges, List.map_id', List.append_nil]

theorem carryValue_spec {variant variant' : IrFunction} (apart : Apart (done ++ [value]))
    (inner : carrier.header ≠ carrier.entry) (before : CarriedTo carrier done variant)
    (carried : carrier.carryValue variant value = .ok variant') :
    CarriedTo carrier (done ++ [value]) variant' := by
  obtain ⟨incoming, merged, carried⟩ := bind_eq_ok.mp carried
  obtain ⟨blocks, updated, same⟩ := bind_eq_ok.mp carried
  obtain ⟨sameIncoming, reached⟩ := mergedIncoming_spec merged
  subst sameIncoming
  cases same
  have lookup : ∀ id, (blocks.modify carrier.header fun block =>
      { block with phiNodes := block.phiNodes ++ [carrier.mergePhi value] }).get? id =
      (blocks.get? id).map (carrier.withMerge value id) := by
    intro id
    rw [OrdMap.get?_modify]
    unfold Carrier.withMerge
    split_ifs with here
    · rfl
    · simp
  refine ⟨?_, ?_, ?_, ?_⟩
  · conv_lhs => rw [before.rest]
  · intro id block found
    obtain ⟨middle, inVariant, atEntry, elsewhere⟩ := before.blocks found
    obtain ⟨after, ofMiddle, inBlocks⟩ : ∃ after,
        carrier.carryBlock value id middle = .ok after ∧ blocks.get? id = some after := by
      obtain ⟨after, ofMiddle⟩ := OrdMap.update_of_mapValuesM updated inVariant
      exact ⟨after, ofMiddle,
        (OrdMap.get?_mapValuesM updated id after).mpr ⟨middle, inVariant, ofMiddle⟩⟩
    refine ⟨carrier.withMerge value id after, ?_, ?_, ?_⟩
    · refine (lookup id).trans ?_
      rw [inBlocks]
      rfl
    · intro here
      have kept : carrier.withMerge value id after = after := if_neg (here ▸ Ne.symm inner)
      unfold Carrier.carryBlock at ofMiddle
      rw [if_pos here] at ofMiddle
      cases ofMiddle
      rw [kept, atEntry here]
    · intro different
      exact carriedBlock_step apart different (reaching_self value) (elsewhere different) ofMiddle
  · intro id block' found
    obtain ⟨after, inBlocks, -⟩ := Option.map_eq_some_iff.mp ((lookup id).symm.trans found)
    obtain ⟨middle, inVariant, -⟩ := (OrdMap.get?_mapValuesM updated id after).mp inBlocks
    exact before.only inVariant
  · intro other inAll
    rcases List.mem_append.mp inAll with earlier | last
    · exact before.merges other earlier
    · rw [List.mem_singleton.mp last]
      exact reached

theorem carriedTo_foldlM {rest : List Redefined} {variant variant' : IrFunction}
    (apart : Apart (done ++ rest)) (inner : carrier.header ≠ carrier.entry)
    (before : CarriedTo carrier done variant)
    (carried : rest.foldlM carrier.carryValue variant = .ok variant') :
    CarriedTo carrier (done ++ rest) variant' := by
  induction rest generalizing done variant with
  | nil =>
      cases carried
      rwa [List.append_nil]
  | cons value rest ih =>
      rw [List.foldlM_cons] at carried
      obtain ⟨middle, first, carried⟩ := bind_eq_ok.mp carried
      have all : done ++ value :: rest = done ++ [value] ++ rest := by simp
      rw [all] at apart ⊢
      exact ih apart (carryValue_spec apart.left inner before first) carried

end Rayzor.Osr
