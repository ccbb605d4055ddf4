import Rayzor.Scopes.Histories

/-!
Contract: when the lookups of a scope tree agree with lexical scoping.
-/

namespace Rayzor.Scopes

open Library (OrdMap Yields)

variable {symbolTable : SymbolTable} {history : History} {tree : ScopeTree}

theorem ParentChain.unique {scopeId : ScopeId} {first : List ScopeId}
    (isFirst : ParentChain tree scopeId first) : ∀ {second : List ScopeId},
    ParentChain tree scopeId second → first = second := by
  induction isFirst with
  | ends last =>
      intro second isSecond
      cases isSecond with
      | ends => rfl
      | next isParent => rw [last] at isParent; cases isParent
  | next isParent further ih =>
      intro second isSecond
      cases isSecond with
      | ends last => rw [last] at isParent; cases isParent
      | next isParent' further' =>
          rw [isParent, Option.some.injEq] at isParent'
          subst isParent'
          rw [ih further']

theorem ParentChain.walked {scopeId : ScopeId} {chain : List ScopeId}
    (isChain : ParentChain tree scopeId chain) : ∀ {fuel : Nat}, chain.length < fuel →
    tree.ancestorsWithin fuel scopeId = .ok chain := by
  induction isChain with
  | ends last =>
      intro fuel enough
      obtain ⟨fuel, rfl⟩ := Nat.exists_eq_succ_of_ne_zero (Nat.ne_of_gt (Nat.zero_lt_of_lt enough))
      rw [ScopeTree.ancestorsWithin, last]
  | next isParent further ih =>
      intro fuel enough
      obtain ⟨fuel, rfl⟩ := Nat.exists_eq_succ_of_ne_zero (Nat.ne_of_gt (Nat.zero_lt_of_lt enough))
      rw [List.length_cons] at enough
      rw [ScopeTree.ancestorsWithin, isParent]
      simp only
      rw [ih (Nat.lt_of_succ_lt_succ enough)]
      rfl

theorem ParentChain.of_sameParents {tree' : ScopeTree} {scopeId : ScopeId} {chain : List ScopeId}
    (same : ∀ id, (tree'.getScope id).bind (·.parentId) = (tree.getScope id).bind (·.parentId))
    (isChain : ParentChain tree scopeId chain) : ParentChain tree' scopeId chain := by
  induction isChain with
  | ends last => exact .ends ((same _).trans last)
  | next isParent _ ih => exact .next ((same _).trans isParent) ih

/-- The list and the map of every scope hold what is declared there, ids are accounted for, depths
follow parents, and cached ancestors are right. -/
structure Sound (symbolTable : SymbolTable) (history : History) : Prop where
  listed : ∀ {scopeId scope}, history.tree.getScope scopeId = some scope → ∀ name symbolId,
    (name, symbolId) ∈ history.declared scopeId ↔
      symbolId ∈ scope.symbols ∧ symbolTable.nameOf symbolId = some name
  mapped : ∀ {scopeId scope}, history.tree.getScope scopeId = some scope → ∀ name symbolId,
    scope.getSymbol name = some symbolId ↔ (name, symbolId) ∈ history.declared scopeId
  absent : ∀ {scopeId}, history.tree.getScope scopeId = none → history.declared scopeId = []
  counted : ∀ {scopeId}, history.isScope scopeId →
    scopeId ∈ history.given ∨ scopeId < history.tree.totalScopes
  depth_eq : ∀ {scopeId parentId scope parent}, history.tree.getScope scopeId = some scope →
    scope.parentId = some parentId → history.tree.getScope parentId = some parent →
    scope.depth = parent.depth + 1
  shallow : ∀ {scopeId scope}, history.tree.getScope scopeId = some scope →
    scope.depth < history.tree.scopesById.entries.length
  cached : ∀ {scopeId chain}, history.tree.ancestorCache.get? scopeId = some chain →
    ParentChain history.tree scopeId chain

abbrev isNamed (name : InternedString) (pair : InternedString × SymbolId) : Bool := pair.1 == name

namespace Sound

variable (sound : Sound symbolTable history)

include sound

theorem one_symbol {scopeId : ScopeId} {name : InternedString} {first second : SymbolId}
    (isFirst : (name, first) ∈ history.declared scopeId)
    (isSecond : (name, second) ∈ history.declared scopeId) : first = second := by
  cases found : history.tree.getScope scopeId with
  | none =>
      rw [sound.absent found] at isFirst
      cases isFirst
  | some scope =>
      have one := (sound.mapped found name first).mpr isFirst
      rw [(sound.mapped found name second).mpr isSecond] at one
      exact (Option.some.inj one).symm

theorem newest_eq_some_iff {scopeId : ScopeId} {name : InternedString} {symbolId : SymbolId} :
    history.newest name scopeId = some symbolId ↔ (name, symbolId) ∈ history.declared scopeId := by
  unfold History.newest
  constructor
  · intro isNewest
    obtain ⟨pair, found, rfl⟩ := Option.map_eq_some_iff.mp isNewest
    have isName : pair.1 = name := beq_iff_eq.mp (List.find?_some (p := isNamed name) found)
    exact isName ▸ List.mem_of_find?_eq_some found
  · intro member
    cases found : (history.declared scopeId).find? (·.1 == name) with
    | none =>
        have different := List.find?_eq_none.mp found _ member
        rw [beq_self_eq_true] at different
        exact absurd rfl different
    | some pair =>
        have isName : pair.1 = name := beq_iff_eq.mp (List.find?_some (p := isNamed name) found)
        have other : (name, pair.2) ∈ history.declared scopeId :=
          isName ▸ List.mem_of_find?_eq_some found
        rw [Option.map_some, sound.one_symbol other member]

theorem newest_of_absent {scopeId : ScopeId} (missing : history.tree.getScope scopeId = none)
    (name : InternedString) : history.newest name scopeId = none := by
  unfold History.newest
  rw [sound.absent missing]
  rfl

theorem ownSymbol_eq (name : InternedString) (scopeId : ScopeId) :
    history.tree.ownSymbol name scopeId = history.newest name scopeId := by
  unfold ScopeTree.ownSymbol
  cases found : history.tree.getScope scopeId with
  | none => rw [sound.newest_of_absent found, Option.bind_none]
  | some scope =>
      apply Option.ext
      intro symbolId
      rw [sound.newest_eq_some_iff, Option.bind_some]
      exact sound.mapped found name symbolId

theorem listed_eq {scopeId : ScopeId} {scope : Scope}
    (found : history.tree.getScope scopeId = some scope) (name : InternedString) :
    (scope.symbols.find? fun symbolId => symbolTable.nameOf symbolId == some name) =
      history.newest name scopeId := by
  cases hit : scope.symbols.find? fun symbolId => symbolTable.nameOf symbolId == some name with
  | none =>
      symm
      rw [Option.eq_none_iff_forall_ne_some]
      intro symbolId isNewest
      obtain ⟨member, isName⟩ :=
        (sound.listed found name symbolId).mp (sound.newest_eq_some_iff.mp isNewest)
      exact List.find?_eq_none.mp hit symbolId member (beq_iff_eq.mpr isName)
  | some symbolId =>
      symm
      rw [sound.newest_eq_some_iff, sound.listed found]
      exact ⟨List.mem_of_find?_eq_some hit, beq_iff_eq.mp
        (List.find?_some (p := fun symbolId => symbolTable.nameOf symbolId == some name) hit)⟩

theorem knownSymbol_eq (name : InternedString) (scopeId : ScopeId) :
    (history.tree.knownSymbol symbolTable name scopeId).map (fun found => found.1.id) =
      history.newest name scopeId := by
  unfold ScopeTree.knownSymbol
  rw [sound.ownSymbol_eq]
  cases isNewest : history.newest name scopeId with
  | none => rfl
  | some symbolId =>
      have member := sound.newest_eq_some_iff.mp isNewest
      cases found : history.tree.getScope scopeId with
      | none =>
          rw [sound.absent found] at member
          cases member
      | some scope =>
          obtain ⟨symbol, known, -⟩ :=
            Option.map_eq_some_iff.mp ((sound.listed found name symbolId).mp member).2
          rw [Option.bind_some, known]
          exact congrArg some (symbolTable.keyed known)

theorem chain_of_scope (depth : Nat) : ∀ {scopeId : ScopeId} {scope : Scope},
    history.tree.getScope scopeId = some scope → scope.depth = depth →
    ∃ chain, ParentChain history.tree scopeId chain ∧ chain.length ≤ depth + 1 := by
  induction depth with
  | zero =>
      intro scopeId scope found isDepth
      cases parent : scope.parentId with
      | none => exact ⟨[], .ends (by rw [found]; exact parent), Nat.zero_le _⟩
      | some parentId =>
          have isParent : (history.tree.getScope scopeId).bind (·.parentId) = some parentId := by
            rw [found]
            exact parent
          cases above : history.tree.getScope parentId with
          | none => exact ⟨[parentId], .next isParent (.ends (by rw [above]; rfl)), Nat.le_refl _⟩
          | some other =>
              have deeper := sound.depth_eq found parent above
              omega
  | succ depth ih =>
      intro scopeId scope found isDepth
      cases parent : scope.parentId with
      | none => exact ⟨[], .ends (by rw [found]; exact parent), Nat.zero_le _⟩
      | some parentId =>
          have isParent : (history.tree.getScope scopeId).bind (·.parentId) = some parentId := by
            rw [found]
            exact parent
          cases above : history.tree.getScope parentId with
          | none =>
              exact ⟨[parentId], .next isParent (.ends (by rw [above]; rfl)),
                Nat.succ_le_succ (Nat.zero_le _)⟩
          | some other =>
              have deeper := sound.depth_eq found parent above
              obtain ⟨chain, isChain, short⟩ := ih above (by omega)
              exact ⟨parentId :: chain, .next isParent isChain, Nat.succ_le_succ short⟩

/-- Chains are short enough for the walks that follow them. -/
theorem chain (scopeId : ScopeId) : ∃ chain, ParentChain history.tree scopeId chain ∧
    chain.length < history.tree.scopesById.entries.length + 1 := by
  cases found : history.tree.getScope scopeId with
  | none => exact ⟨[], .ends (by rw [found]; rfl), Nat.succ_pos _⟩
  | some scope =>
      obtain ⟨chain, isChain, short⟩ := sound.chain_of_scope scope.depth found rfl
      have shallow := sound.shallow found
      exact ⟨chain, isChain, by omega⟩

/-- The ancestors are the chain, and remembering them changes nothing else. -/
theorem getAncestors_eq {scopeId : ScopeId} {chain : List ScopeId}
    (isChain : ParentChain history.tree scopeId chain) : ∃ cache,
    history.tree.getAncestors scopeId =
        .ok (chain, { history.tree with ancestorCache := cache }) ∧
      ∀ {other found}, cache.get? other = some found →
        ParentChain history.tree other found := by
  unfold ScopeTree.getAncestors
  cases known : history.tree.ancestorCache.get? scopeId with
  | some cached =>
      refine ⟨history.tree.ancestorCache, ?_, sound.cached⟩
      rw [isChain.unique (sound.cached known)]
  | none =>
      obtain ⟨chain', isChain', short⟩ := sound.chain scopeId
      obtain rfl := isChain.unique isChain'
      simp only [isChain'.walked short]
      refine ⟨_, rfl, fun {other found} isFound => ?_⟩
      rw [OrdMap.get?_insert] at isFound
      split at isFound
      · rename_i same
        subst same
        cases isFound
        exact isChain'
      · exact sound.cached isFound

theorem resolveName_eq {scopeId : ScopeId} {chain : List ScopeId}
    (isChain : ParentChain history.tree scopeId chain) (name : InternedString) :
    (history.tree.resolveName scopeId name).map Prod.fst =
      .ok ((scopeId :: chain).findSome? (history.newest name)) := by
  unfold ScopeTree.resolveName
  have own : history.tree.ownSymbol name = history.newest name :=
    funext (sound.ownSymbol_eq name)
  rw [own, List.findSome?_cons]
  cases history.newest name scopeId with
  | some symbolId => rfl
  | none =>
      obtain ⟨cache, isAncestors, -⟩ := sound.getAncestors_eq isChain
      rw [isAncestors]
      show Except.ok (chain.findSome? (history.tree.ownSymbol name)) = _
      rw [own]

theorem resolveSymbolFromScope_eq {scopeId : ScopeId} {chain : List ScopeId}
    (isChain : ParentChain history.tree scopeId chain) (name : InternedString) :
    (history.tree.resolveSymbolFromScope symbolTable scopeId name).map
        (·.1.map fun found => found.1.id) =
      .ok ((scopeId :: chain).findSome? (history.newest name)) := by
  unfold ScopeTree.resolveSymbolFromScope
  have known : (fun id => (history.tree.knownSymbol symbolTable name id).map
      fun found => found.1.id) = history.newest name := funext (sound.knownSymbol_eq name)
  have atStart := sound.knownSymbol_eq name scopeId
  rw [List.findSome?_cons, ← atStart]
  cases history.tree.knownSymbol symbolTable name scopeId with
  | some found => rfl
  | none =>
      obtain ⟨cache, isAncestors, -⟩ := sound.getAncestors_eq isChain
      rw [isAncestors, ← known]
      show Except.ok ((chain.findSome? (history.tree.knownSymbol symbolTable name)).map
        fun found => found.1.id) = _
      rw [List.map_findSome?]
      rfl

theorem lookupWithin_eq {scopeId : ScopeId} {chain : List ScopeId}
    (isChain : ParentChain history.tree scopeId chain) (name : InternedString) :
    ∀ {fuel : Nat}, chain.length < fuel →
      history.tree.lookupWithin symbolTable name fuel scopeId =
        .ok ((scopeId :: chain).findSome? (history.newest name)) := by
  induction isChain with
  | @ends scopeId last =>
      intro fuel enough
      obtain ⟨fuel, rfl⟩ := Nat.exists_eq_succ_of_ne_zero (Nat.ne_of_gt (Nat.zero_lt_of_lt enough))
      rw [ScopeTree.lookupWithin, List.findSome?_cons, List.findSome?_nil]
      cases found : history.tree.getScope scopeId with
      | none => rw [sound.newest_of_absent found]
      | some scope =>
          rw [found, Option.bind_some] at last
          simp only [sound.listed_eq found, last]
          cases history.newest name scopeId <;> rfl
  | @next scopeId parentId rest isParent further ih =>
      intro fuel enough
      obtain ⟨fuel, rfl⟩ := Nat.exists_eq_succ_of_ne_zero (Nat.ne_of_gt (Nat.zero_lt_of_lt enough))
      rw [List.length_cons] at enough
      rw [ScopeTree.lookupWithin, List.findSome?_cons]
      cases found : history.tree.getScope scopeId with
      | none =>
          rw [found] at isParent
          cases isParent
      | some scope =>
          rw [found, Option.bind_some] at isParent
          simp only [sound.listed_eq found, isParent]
          cases history.newest name scopeId with
          | some symbolId => rfl
          | none => exact ih (Nat.lt_of_succ_lt_succ enough)

theorem agrees : Agrees symbolTable history where
  ancestors := by
    intro scopeId
    obtain ⟨chain, isChain, -⟩ := sound.chain scopeId
    obtain ⟨cache, isAncestors, -⟩ := sound.getAncestors_eq isChain
    exact ⟨chain, isChain, by rw [isAncestors]; rfl⟩
  resolves := by
    intro scopeId name
    obtain ⟨chain, isChain, short⟩ := sound.chain scopeId
    exact ⟨chain, isChain, sound.resolveName_eq isChain name,
      sound.lookupWithin_eq isChain name short, sound.resolveSymbolFromScope_eq isChain name⟩
  depth_eq := sound.depth_eq

end Sound

end Rayzor.Scopes
