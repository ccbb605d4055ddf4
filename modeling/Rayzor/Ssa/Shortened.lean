import Rayzor.Ssa.Points

/-!
Contract: what becomes of points and definitions when instructions are taken out
of blocks and the others are rewritten in place.
-/

namespace Rayzor.Ssa

open Ir Library Library.Graph

/-- Where the place before instruction `pc` ends up. -/
def shortenedPc (keep : IrInstruction → Bool) (block : IrBasicBlock) (pc : Nat) : Nat :=
  ((block.instructions.take pc).filter keep).length

structure ShortenedBlock (keep : IrInstruction → Bool) (rewrite : IrInstruction → IrInstruction)
    (block block' : IrBasicBlock) : Prop where
  instructions : block'.instructions = (block.instructions.filter keep).map rewrite
  successors : block'.successors = block.successors
  dests : block'.phiNodes.map (·.dest) = block.phiNodes.map (·.dest)

/-- The second function is the first without the instructions that are not kept.
Those assign dropped registers only. -/
structure Shortened (function function' : IrFunction) (keep : IrInstruction → Bool)
    (rewrite : IrInstruction → IrInstruction) (Dropped : IrId → Prop) : Prop where
  signature : function'.signature = function.signature
  entry : function'.cfg.entryBlock = function.cfg.entryBlock
  block : ∀ {id block}, function.getBlock id = some block →
    ∃ block', function'.getBlock id = some block' ∧ ShortenedBlock keep rewrite block block'
  blockOf : ∀ {id block'}, function'.getBlock id = some block' →
    ∃ block, function.getBlock id = some block ∧ ShortenedBlock keep rewrite block block'
  writes : ∀ inst, (rewrite inst).writes = inst.writes
  dropped : ∀ {id block inst reg}, function.getBlock id = some block →
    inst ∈ block.instructions → keep inst = false → inst.writes = some reg → Dropped reg

section Places

variable {keep : IrInstruction → Bool} {rewrite : IrInstruction → IrInstruction}
  {block block' : IrBasicBlock} {pc : Nat} {inst : IrInstruction}

theorem shortenedPc_succ (keep : IrInstruction → Bool) (here : block.instructions[pc]? = some inst) :
    shortenedPc keep block (pc + 1) = shortenedPc keep block pc + if keep inst then 1 else 0 := by
  unfold shortenedPc
  rw [List.take_add_one, here, List.filter_append, List.length_append]
  cases kept : keep inst <;> simp [kept]

theorem shortenedPc_mono (keep : IrInstruction → Bool) (block : IrBasicBlock) {first second : Nat} (order : first ≤ second) :
    shortenedPc keep block first ≤ shortenedPc keep block second := by
  have isPrefix : block.instructions.take first <+: block.instructions.take second := by
    have taken := List.take_prefix first (block.instructions.take second)
    rwa [List.take_take, Nat.min_eq_left order] at taken
  exact (isPrefix.sublist.filter keep).length_le

theorem ShortenedBlock.length (shortened : ShortenedBlock keep rewrite block block') :
    block'.instructions.length = shortenedPc keep block block.instructions.length := by
  rw [shortened.instructions, List.length_map, shortenedPc, List.take_length]

theorem ShortenedBlock.at (shortened : ShortenedBlock keep rewrite block block')
    (here : block.instructions[pc]? = some inst) (kept : keep inst = true) :
    block'.instructions[shortenedPc keep block pc]? = some (rewrite inst) := by
  have split : block.instructions = block.instructions.take pc ++
      inst :: block.instructions.drop (pc + 1) := by
    obtain ⟨inside, rfl⟩ := List.getElem?_eq_some_iff.mp here
    rw [← List.drop_eq_getElem_cons inside, List.take_append_drop]
  have filtered : block.instructions.filter keep = (block.instructions.take pc).filter keep ++
      inst :: (block.instructions.drop (pc + 1)).filter keep := by
    conv_lhs => rw [split]
    rw [List.filter_append, List.filter_cons_of_pos kept]
  rw [shortened.instructions, shortenedPc, List.getElem?_map, filtered,
    List.getElem?_append_right (Nat.le_refl _), Nat.sub_self]
  rfl

theorem ShortenedBlock.of_at (shortened : ShortenedBlock keep rewrite block block')
    {place : Nat} {inst' : IrInstruction} (here : block'.instructions[place]? = some inst') :
    ∃ pc inst, block.instructions[pc]? = some inst ∧ keep inst = true ∧ inst' = rewrite inst ∧
      place = shortenedPc keep block pc := by
  have inside := (List.getElem?_eq_some_iff.mp here).1
  rw [shortened.length] at inside
  -- the last place before the instruction is the one whose count first exceeds `place`
  have exceeds : ∃ bound, place < shortenedPc keep block bound := ⟨_, inside⟩
  obtain ⟨bound, beyond, least⟩ : ∃ bound, place < shortenedPc keep block bound ∧
      ∀ other < bound, shortenedPc keep block other ≤ place :=
    ⟨Nat.find exceeds, Nat.find_spec exceeds, fun other below =>
      Nat.le_of_not_lt (Nat.find_min exceeds below)⟩
  cases bound with
  | zero => exact absurd beyond (Nat.not_lt_zero place)
  | succ pc =>
      have before := least pc (Nat.lt_succ_self pc)
      cases found : block.instructions[pc]? with
      | none =>
          have past := List.getElem?_eq_none_iff.mp found
          have same : shortenedPc keep block (pc + 1) = shortenedPc keep block pc := by
            unfold shortenedPc
            rw [List.take_of_length_le past, List.take_of_length_le (by omega)]
          omega
      | some inst =>
          have next := shortenedPc_succ keep found
          cases kept : keep inst with
          | false =>
              rw [kept] at next
              simp only [Bool.false_eq_true, if_false] at next
              omega
          | true =>
              rw [kept, if_pos rfl] at next
              have place_eq : place = shortenedPc keep block pc := by omega
              refine ⟨pc, inst, found, kept, ?_, place_eq⟩
              have moved := shortened.at found kept
              rw [← place_eq, here] at moved
              exact Option.some.inj moved

end Places

section Paths

variable {function function' : IrFunction} {keep : IrInstruction → Bool}
  {rewrite : IrInstruction → IrInstruction} {Dropped : IrId → Prop}

theorem Shortened.definesAt (shortened : Shortened function function' keep rewrite Dropped)
    {reg : IrId} {point : Point} (defines : DefinesAt function' reg point) :
    DefinesAt function reg (point.1, 0) ∨
      ∃ (block : IrBasicBlock) (pc : Nat) (inst : IrInstruction),
        function.getBlock point.1 = some block ∧ block.instructions[pc]? = some inst ∧
          keep inst = true ∧ inst.writes = some reg := by
  rcases defines with member | ⟨found, member⟩ | ⟨found, here, writes⟩
  · have atEntry : ((entryPoint function').1, 0) = entryPoint function := by
      rw [entryPoint, entryPoint, shortened.entry]
    rw [atEntry]
    exact Or.inl (.parameter (shortened.signature ▸ member))
  · obtain ⟨block, foundOld, same⟩ := shortened.blockOf found
    exact Or.inl (.phi foundOld (same.dests ▸ member))
  · obtain ⟨block, foundOld, same⟩ := shortened.blockOf found
    obtain ⟨pc, inst, hereOld, kept, rfl, -⟩ := same.of_at here
    rw [shortened.writes] at writes
    exact Or.inr ⟨block, pc, inst, foundOld, hereOld, kept, writes⟩

theorem Shortened.defines_moved (shortened : Shortened function function' keep rewrite Dropped)
    {reg : IrId} {id : IrBlockId} {block : IrBasicBlock} {pc : Nat}
    (found : function.getBlock id = some block) (defines : DefinesAt function reg (id, pc))
    (notDropped : ¬Dropped reg) : DefinesAt function' reg (id, shortenedPc keep block pc) := by
  obtain ⟨block', found', same⟩ := shortened.block found
  generalize isPoint : (id, pc) = point at defines
  rcases defines with member | ⟨foundAgain, member⟩ | ⟨foundAgain, here, writes⟩
  · cases isPoint
    have atEntry : (function.cfg.entryBlock, shortenedPc keep block 0) = entryPoint function' := by
      rw [entryPoint, shortened.entry]
      rfl
    rw [atEntry]
    exact .parameter (shortened.signature ▸ member)
  · cases isPoint
    cases found.symm.trans foundAgain
    exact .phi found' (same.dests ▸ member)
  · cases isPoint
    cases found.symm.trans foundAgain
    rename_i inst
    cases kept : keep inst with
    | false =>
        exact absurd (shortened.dropped found (List.mem_of_getElem? here) kept writes) notDropped
    | true =>
        rw [shortenedPc_succ keep here, kept, if_pos rfl]
        exact .instruction found' (same.at here kept) (by rwa [shortened.writes])

theorem Shortened.walk_past (shortened : Shortened function function' keep rewrite Dropped)
    {id : IrBlockId} {block : IrBasicBlock} (found : function.getBlock id = some block)
    {path : List Point} {first : Nat}
    (walk : EntryPath (Edge function) (entryPoint function) path (id, first)) {pc : Nat}
    (order : first ≤ pc) (inside : pc ≤ block.instructions.length)
    (same : shortenedPc keep block first = shortenedPc keep block pc) :
    ∃ longer, EntryPath (Edge function) (entryPoint function) longer (id, pc) ∧
      ∀ reg, ∀ point ∈ longer, DefinesAt function reg point → point ∈ path ∨ Dropped reg := by
  induction pc, order using Nat.le_induction with
  | base => exact ⟨path, walk, fun _ point member _ => Or.inl member⟩
  | succ pc order ih =>
      have later := shortenedPc_mono keep block (Nat.le_add_right pc 1)
      have earlier := shortenedPc_mono keep block order
      obtain ⟨longer, walk', defined⟩ := ih (by omega) (by omega)
      obtain ⟨inst, here⟩ : ∃ inst, block.instructions[pc]? = some inst :=
        ⟨_, List.getElem?_eq_getElem (by omega)⟩
      have next := shortenedPc_succ keep here
      have notKept : keep inst = false := by
        by_contra kept
        rw [Bool.not_eq_false] at kept
        rw [kept, if_pos rfl] at next
        omega
      refine ⟨(id, pc + 1) :: longer, .step walk' (.within found (by omega)), ?_⟩
      intro reg point member defines
      rcases List.mem_cons.mp member with atNext | before
      · rw [atNext] at defines
        cases defines with
        | instruction foundAgain hereAgain writes =>
            cases found.symm.trans foundAgain
            cases here.symm.trans hereAgain
            exact Or.inr (shortened.dropped found (List.mem_of_getElem? here) notKept writes)
      · exact defined reg point before defines

/-- A path of the shortened function comes from one of the original function to
any place that ends up there. What that one defines and is not dropped, the
shortened one defines too. -/
theorem Shortened.walk (shortened : Shortened function function' keep rewrite Dropped)
    {path' : List Point} {point' : Point}
    (walk' : EntryPath (Edge function') (entryPoint function') path' point') :
    (∀ block', function'.getBlock point'.1 = some block' →
        point'.2 ≤ block'.instructions.length) ∧
      ∀ block pc, function.getBlock point'.1 = some block → pc ≤ block.instructions.length →
        shortenedPc keep block pc = point'.2 →
        ∃ path, EntryPath (Edge function) (entryPoint function) path (point'.1, pc) ∧
          ∀ reg, ¬Dropped reg → (∃ point ∈ path, DefinesAt function reg point) →
            ∃ point ∈ path', DefinesAt function' reg point := by
  induction walk' with
  | start =>
      refine ⟨fun _ _ => Nat.zero_le _, fun block pc found inside ended => ?_⟩
      have atEntry : entryPoint function = ((entryPoint function').1, 0) := by
        rw [entryPoint, entryPoint, shortened.entry]
      have first : EntryPath (Edge function) (entryPoint function)
          [((entryPoint function').1, 0)] ((entryPoint function').1, 0) := by
        rw [← atEntry]
        exact .start
      obtain ⟨longer, walk, defined⟩ := shortened.walk_past found first (Nat.zero_le pc) inside
        (by rw [ended]; rfl)
      refine ⟨longer, walk, fun reg notDropped ⟨point, member, defines⟩ => ?_⟩
      have atStart := (defined reg point member defines).resolve_right notDropped
      rw [List.mem_singleton] at atStart
      rw [atStart] at defines
      exact ⟨_, List.mem_singleton_self _, shortened.defines_moved found defines notDropped⟩
  | @step path' source target earlier along ih =>
      obtain ⟨bounded, lifted⟩ := ih
      cases along with
      | @within id block' place found' inside' =>
          constructor
          · intro again foundAgain
            cases found'.symm.trans foundAgain
            exact inside'
          · intro block pc found inside ended
            obtain ⟨again, foundAgain, same⟩ := shortened.block found
            cases found'.symm.trans foundAgain
            obtain ⟨before, inst, here, kept, -, atPlace⟩ :=
              same.of_at (List.getElem?_eq_getElem inside')
            have next := shortenedPc_succ keep here
            rw [kept, if_pos rfl] at next
            have inBlock := (List.getElem?_eq_some_iff.mp here).1
            have order : before + 1 ≤ pc := by
              by_contra least
              have below := shortenedPc_mono keep block (show pc ≤ before by omega)
              simp only at ended
              omega
            obtain ⟨path, walk, covered⟩ := lifted block before found (by omega) atPlace.symm
            obtain ⟨longer, walk', defined⟩ := shortened.walk_past found
              (.step walk (.within found inBlock)) order inside (by simp only at ended; omega)
            refine ⟨longer, walk', fun reg notDropped ⟨point, member, defines⟩ => ?_⟩
            rcases List.mem_cons.mp ((defined reg point member defines).resolve_right notDropped)
              with atNext | onPath
            · rw [atNext] at defines
              have moved := shortened.defines_moved found defines notDropped
              rw [next, ← atPlace] at moved
              exact ⟨_, List.mem_cons_self, moved⟩
            · obtain ⟨point', onPath', defines'⟩ := covered reg notDropped ⟨point, onPath, defines⟩
              exact ⟨point', List.mem_cons_of_mem _ onPath', defines'⟩
      | @across id target block' place found' done successor =>
          refine ⟨fun _ _ => Nat.zero_le _, fun targetBlock pc foundTarget inside ended => ?_⟩
          obtain ⟨block, found, same⟩ := shortened.blockOf found'
          have atEnd : shortenedPc keep block block.instructions.length = place := by
            rw [← same.length]
            exact Nat.le_antisymm done (bounded block' found')
          obtain ⟨path, walk, covered⟩ :=
            lifted block block.instructions.length found (Nat.le_refl _) atEnd
          have edge : Edge function (id, block.instructions.length) (target, 0) :=
            .across found (Nat.le_refl _) (same.successors ▸ successor)
          obtain ⟨longer, walk', defined⟩ := shortened.walk_past foundTarget (.step walk edge)
            (Nat.zero_le pc) inside (by rw [ended]; rfl)
          refine ⟨longer, walk', fun reg notDropped ⟨point, member, defines⟩ => ?_⟩
          rcases List.mem_cons.mp ((defined reg point member defines).resolve_right notDropped)
            with atNext | onPath
          · rw [atNext] at defines
            exact ⟨_, List.mem_cons_self, shortened.defines_moved foundTarget defines notDropped⟩
          · obtain ⟨point', onPath', defines'⟩ := covered reg notDropped ⟨point, onPath, defines⟩
            exact ⟨point', List.mem_cons_of_mem _ onPath', defines'⟩

/-- A register that is not dropped is still available at the place its users
have moved to. -/
theorem Shortened.available (shortened : Shortened function function' keep rewrite Dropped)
    {reg : IrId} {id : IrBlockId} {block : IrBasicBlock} {pc : Nat}
    (found : function.getBlock id = some block) (inside : pc ≤ block.instructions.length)
    (notDropped : Reachable function (id, pc) → ¬Dropped reg)
    (available : Available function reg (id, pc)) :
    Available function' reg (id, shortenedPc keep block pc) := by
  intro path' walk'
  obtain ⟨path, walk, covered⟩ := (shortened.walk walk').2 block pc found inside rfl
  exact covered reg (notDropped ⟨path, walk⟩) (available path walk)

theorem Shortened.reachable (shortened : Shortened function function' keep rewrite Dropped)
    {point : Point} (reachable : Reachable function point) {block : IrBasicBlock}
    (found : function.getBlock point.1 = some block) :
    Reachable function' (point.1, shortenedPc keep block point.2) := by
  obtain ⟨path, walk⟩ := reachable
  induction walk generalizing block with
  | start =>
      have atEntry : ((entryPoint function).1, shortenedPc keep block (entryPoint function).2) =
          entryPoint function' := by
        rw [entryPoint, entryPoint, shortened.entry]
        rfl
      rw [atEntry]
      exact .start
  | step earlier along ih =>
      cases along with
      | @within id _ pc foundAgain inside =>
          have before := ih found
          obtain ⟨inst, here⟩ : ∃ inst, block.instructions[pc]? = some inst := by
            cases found.symm.trans foundAgain
            exact ⟨_, List.getElem?_eq_getElem inside⟩
          obtain ⟨block', found', same⟩ := shortened.block found
          simp only at before ⊢
          rw [shortenedPc_succ keep here]
          cases kept : keep inst with
          | false => exact before
          | true =>
              have here' := same.at here kept
              exact before.next (.within found' (List.getElem?_eq_some_iff.mp here').1)
      | @across id target sourceBlock pc foundSource done successor =>
          have before := ih foundSource
          obtain ⟨block', found', same⟩ := shortened.block foundSource
          refine before.next (.across found' ?_ (same.successors.symm ▸ successor))
          rw [same.length]
          exact shortenedPc_mono _ _ done

end Paths

end Rayzor.Ssa
