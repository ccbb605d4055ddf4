import Rayzor.Scopes.Lookups

/-!
Contract: every run of careful operations keeps a scope tree in agreement with lexical scoping.
-/

namespace Rayzor.Scopes

open Library (OrdMap Yields)

variable {symbolTable : SymbolTable} {history : History}

@[simp] theorem Scope.addChild_parentId (scope : Scope) (childId : ScopeId) :
    (scope.addChild childId).parentId = scope.parentId := by
  unfold addChild
  split <;> rfl

@[simp] theorem Scope.addChild_depth (scope : Scope) (childId : ScopeId) :
    (scope.addChild childId).depth = scope.depth := by
  unfold addChild
  split <;> rfl

@[simp] theorem Scope.addChild_symbols (scope : Scope) (childId : ScopeId) :
    (scope.addChild childId).symbols = scope.symbols := by
  unfold addChild
  split <;> rfl

@[simp] theorem Scope.addChild_getSymbol (scope : Scope) (childId : ScopeId) :
    (scope.addChild childId).getSymbol = scope.getSymbol := by
  unfold addChild
  split <;> rfl

theorem sound_start (globalScopeId : ScopeId) :
    Sound symbolTable (History.start globalScopeId) := by
  have only : ∀ {scopeId scope}, (ScopeTree.new globalScopeId).getScope scopeId = some scope →
      scopeId = globalScopeId ∧ scope = Scope.new none 0 := by
    intro scopeId scope found
    unfold ScopeTree.getScope ScopeTree.new at found
    rw [OrdMap.get?_insert] at found
    split at found
    · rename_i same
      exact ⟨same, (Option.some.inj found).symm⟩
    · cases found
  constructor
  · intro scopeId scope found name symbolId
    obtain ⟨-, rfl⟩ := only found
    simp [History.start, Scope.new]
  · intro scopeId scope found name symbolId
    obtain ⟨-, rfl⟩ := only found
    simp [History.start, Scope.new, Scope.getSymbol]
  · exact fun _ => rfl
  · rintro scopeId ⟨scope, found⟩
    obtain ⟨rfl, -⟩ := only found
    exact .inl (List.mem_singleton_self _)
  · intro scopeId parentId scope parent found isParent
    obtain ⟨-, rfl⟩ := only found
    cases isParent
  · intro scopeId scope found
    obtain ⟨-, rfl⟩ := only found
    exact Nat.zero_lt_one
  · intro scopeId chain found
    cases found

namespace Sound

variable (sound : Sound symbolTable history)

include sound

theorem recached {cache : OrdMap ScopeId (List ScopeId)} (current : ScopeId)
    (right : ∀ {other found}, cache.get? other = some found →
      ParentChain history.tree other found) :
    Sound symbolTable { history with
      tree := { history.tree with ancestorCache := cache, currentScopeId := current } } where
  listed := sound.listed
  mapped := sound.mapped
  absent := sound.absent
  counted := sound.counted
  depth_eq := sound.depth_eq
  shallow := sound.shallow
  cached := by
    intro scopeId chain found
    refine ParentChain.of_sameParents (fun id => ?_) (right found)
    rfl

theorem remembered {scopeId : ScopeId} : ∃ ancestors cache,
    history.tree.getAncestors scopeId =
        .ok (ancestors, { history.tree with ancestorCache := cache }) ∧
      Sound symbolTable { history with tree := { history.tree with ancestorCache := cache } } := by
  obtain ⟨chain, isChain, -⟩ := sound.chain scopeId
  obtain ⟨cache, isAncestors, right⟩ := sound.getAncestors_eq isChain
  exact ⟨chain, cache, isAncestors, sound.recached history.tree.currentScopeId right⟩

theorem modified {scopeId : ScopeId} {update : Scope → Scope}
    {declared : ScopeId → List (InternedString × SymbolId)}
    (sameParent : ∀ scope, (update scope).parentId = scope.parentId)
    (sameDepth : ∀ scope, (update scope).depth = scope.depth)
    (elsewhere : ∀ other, other ≠ scopeId → declared other = history.declared other)
    (missing : history.tree.getScope scopeId = none → declared scopeId = [])
    (lists : ∀ {scope}, history.tree.getScope scopeId = some scope → ∀ name symbolId,
      (name, symbolId) ∈ declared scopeId ↔
        symbolId ∈ (update scope).symbols ∧ symbolTable.nameOf symbolId = some name)
    (maps : ∀ {scope}, history.tree.getScope scopeId = some scope → ∀ name symbolId,
      (update scope).getSymbol name = some symbolId ↔ (name, symbolId) ∈ declared scopeId) :
    Sound symbolTable ⟨history.tree.modifyScope scopeId update, declared, history.given⟩ := by
  have lookup : ∀ other, (history.tree.modifyScope scopeId update).getScope other =
      if other = scopeId then (history.tree.getScope other).map update
      else history.tree.getScope other := fun other => OrdMap.get?_modify _ _ _ _
  have here : ∀ {other scope}, (history.tree.modifyScope scopeId update).getScope other =
      some scope → ∃ before, history.tree.getScope other = some before ∧
        scope.parentId = before.parentId ∧ scope.depth = before.depth := by
    intro other scope found
    rw [lookup] at found
    split at found
    · obtain ⟨before, wasThere, rfl⟩ := Option.map_eq_some_iff.mp found
      exact ⟨before, wasThere, sameParent before, sameDepth before⟩
    · exact ⟨scope, found, rfl, rfl⟩
  have parents : ∀ other,
      ((history.tree.modifyScope scopeId update).getScope other).bind (·.parentId) =
        (history.tree.getScope other).bind (·.parentId) := by
    intro other
    rw [lookup]
    split
    · cases history.tree.getScope other with
      | none => rfl
      | some before => exact sameParent before
    · rfl
  constructor
  · intro other scope found
    change (history.tree.modifyScope scopeId update).getScope other = some scope at found
    rw [lookup] at found
    split at found
    · rename_i same
      subst same
      obtain ⟨before, wasThere, rfl⟩ := Option.map_eq_some_iff.mp found
      exact lists wasThere
    · rename_i different
      show ∀ name symbolId, (name, symbolId) ∈ declared other ↔ _
      rw [elsewhere other different]
      exact sound.listed found
  · intro other scope found
    change (history.tree.modifyScope scopeId update).getScope other = some scope at found
    rw [lookup] at found
    split at found
    · rename_i same
      subst same
      obtain ⟨before, wasThere, rfl⟩ := Option.map_eq_some_iff.mp found
      exact maps wasThere
    · rename_i different
      show ∀ name symbolId, _ ↔ (name, symbolId) ∈ declared other
      rw [elsewhere other different]
      exact sound.mapped found
  · intro other absent
    change (history.tree.modifyScope scopeId update).getScope other = none at absent
    rw [lookup] at absent
    split at absent
    · rename_i same
      subst same
      exact missing (Option.map_eq_none_iff.mp absent)
    · rename_i different
      exact (elsewhere other different).trans (sound.absent absent)
  · rintro other ⟨scope, found⟩
    obtain ⟨before, wasThere, -⟩ := here found
    exact sound.counted ⟨before, wasThere⟩
  · intro other parentId scope parent found isParent above
    obtain ⟨before, wasThere, sameParent', sameDepth'⟩ := here found
    obtain ⟨before', wasThere', -, sameDepth''⟩ := here above
    rw [sameDepth', sameDepth'']
    exact sound.depth_eq wasThere (sameParent' ▸ isParent) wasThere'
  · intro other scope found
    obtain ⟨before, wasThere, -, sameDepth'⟩ := here found
    have size : (history.tree.modifyScope scopeId update).scopesById.entries.length =
        history.tree.scopesById.entries.length := List.length_map _
    rw [sameDepth']
    exact (sound.shallow wasThere).trans_eq size.symm
  · intro other chain found
    exact (sound.cached found).of_sameParents parents

theorem addSymbol {scopeId : ScopeId} {symbolId : SymbolId} {symbolName : InternedString}
    (careful : Careful symbolTable history (.addSymbol scopeId symbolId symbolName)) :
    Sound symbolTable ⟨history.tree.modifyScope scopeId (·.addSymbol symbolId symbolName),
      history.declaring symbolTable (.addSymbol scopeId symbolId symbolName), history.given⟩ := by
  have atScope : ∀ {scope}, history.tree.getScope scopeId = some scope →
      history.declaring symbolTable (.addSymbol scopeId symbolId symbolName) scopeId =
        (symbolName, symbolId) :: history.declared scopeId := fun {scope} found =>
    if_pos ⟨rfl, (OrdMap.contains_iff _ _).mpr ⟨scope, found⟩⟩
  refine sound.modified (fun _ => rfl) (fun _ => rfl) ?_ ?_ ?_ ?_
  · intro other different
    exact if_neg fun both => different both.1
  · intro missing
    have notThere : ¬(history.tree.scopesById.contains scopeId = true) := by
      rw [OrdMap.contains_iff]
      rintro ⟨scope, found⟩
      have isNone : history.tree.scopesById.get? scopeId = none := missing
      rw [isNone] at found
      cases found
    exact (if_neg fun both => notThere both.2).trans (sound.absent missing)
  · intro scope found name other
    obtain ⟨isName, alone⟩ := careful ⟨scope, found⟩
    rw [atScope found, List.mem_cons, sound.listed found, Prod.mk.injEq]
    show _ ↔ other ∈ scope.symbols ++ [symbolId] ∧ _
    rw [List.mem_append, List.mem_singleton]
    constructor
    · rintro (⟨rfl, rfl⟩ | ⟨member, isName'⟩)
      · exact ⟨.inr rfl, isName⟩
      · exact ⟨.inl member, isName'⟩
    · rintro ⟨member | rfl, isName'⟩
      · exact .inr ⟨member, isName'⟩
      · rw [isName, Option.some.injEq] at isName'
        exact .inl ⟨isName'.symm, rfl⟩
  · intro scope found name other
    obtain ⟨-, alone⟩ := careful ⟨scope, found⟩
    rw [atScope found, List.mem_cons, Prod.mk.injEq]
    show (scope.symbolLookupCache.insert symbolName symbolId).get? name = some other ↔ _
    rw [OrdMap.get?_insert]
    split
    · rename_i same
      subst same
      rw [Option.some.injEq]
      constructor
      · rintro rfl
        exact .inl ⟨rfl, rfl⟩
      · rintro (⟨-, rfl⟩ | member)
        · rfl
        · exact (alone _ member rfl).symm
    · rename_i different
      rw [← sound.mapped found]
      exact (or_iff_right fun both => different both.1).symm

theorem removeSymbol {scopeId : ScopeId} {symbolId : SymbolId} {symbolName : InternedString}
    (careful : Careful symbolTable history (.removeSymbol scopeId symbolId symbolName)) :
    Sound symbolTable ⟨history.tree.modifyScope scopeId (·.removeSymbol symbolId symbolName),
      history.declaring symbolTable (.removeSymbol scopeId symbolId symbolName),
      history.given⟩ := by
  have atScope : history.declaring symbolTable (.removeSymbol scopeId symbolId symbolName) scopeId =
      (history.declared scopeId).filter (·.2 ≠ symbolId) := if_pos rfl
  refine sound.modified (fun _ => rfl) (fun _ => rfl) ?_ ?_ ?_ ?_
  · intro other different
    exact if_neg different
  · intro missing
    rw [atScope, sound.absent missing, List.filter_nil]
  · intro scope found name other
    rw [atScope, List.mem_filter, sound.listed found]
    show _ ↔ other ∈ scope.symbols.filter (· ≠ symbolId) ∧ _
    rw [List.mem_filter]
    exact and_right_comm
  · intro scope found name other
    rw [atScope, List.mem_filter, decide_eq_true_eq]
    show (scope.symbolLookupCache.erase symbolName).get? name = some other ↔ _
    rw [OrdMap.get?_erase]
    split
    · rename_i same
      subst same
      constructor
      · intro impossible
        cases impossible
      · rintro ⟨member, different⟩
        exact absurd ((careful _ member).mpr rfl) different
    · rename_i different
      have asBefore := sound.mapped found name other
      unfold Scope.getSymbol at asBefore
      rw [asBefore]
      refine (and_iff_left_of_imp fun member same => ?_).symm
      exact different ((careful _ member).mp same)

theorem addSymbolToScope {scopeId : ScopeId} {symbolId : SymbolId}
    (careful : Careful symbolTable history (.addSymbolToScope scopeId symbolId)) :
    Sound symbolTable ⟨history.tree.addSymbolToScope scopeId symbolId,
      history.declaring symbolTable (.addSymbolToScope scopeId symbolId), history.given⟩ := by
  have atScope : ∀ {scope}, history.tree.getScope scopeId = some scope →
      history.declaring symbolTable (.addSymbolToScope scopeId symbolId) scopeId =
        ((symbolTable.nameOf symbolId).map (·, symbolId)).toList ++ history.declared scopeId :=
    fun {scope} found => if_pos ⟨rfl, (OrdMap.contains_iff _ _).mpr ⟨scope, found⟩⟩
  -- What is declared again was declared before.
  have sameMembers : ∀ {scope}, history.tree.getScope scopeId = some scope → ∀ name other,
      (name, other) ∈ history.declaring symbolTable (.addSymbolToScope scopeId symbolId) scopeId ↔
        (name, other) ∈ history.declared scopeId := by
    intro scope found name other
    rw [atScope found, List.mem_append]
    refine or_iff_right_of_imp fun member => ?_
    rw [Option.mem_toList, Option.map_eq_some_iff] at member
    obtain ⟨isName, known, same⟩ := member
    rw [← same]
    exact careful ⟨scope, found⟩ isName known
  refine sound.modified ?_ ?_ ?_ ?_ ?_ ?_
  · intro scope
    split <;> rfl
  · intro scope
    split <;> rfl
  · intro other different
    exact if_neg fun both => different both.1
  · intro missing
    have notThere : ¬(history.tree.scopesById.contains scopeId = true) := by
      rw [OrdMap.contains_iff]
      rintro ⟨scope, found⟩
      have isNone : history.tree.scopesById.get? scopeId = none := missing
      rw [isNone] at found
      cases found
    exact (if_neg fun both => notThere both.2).trans (sound.absent missing)
  · intro scope found name other
    rw [sameMembers found, sound.listed found]
    split
    · rfl
    · rename_i isNew
      show _ ↔ other ∈ scope.symbols ++ [symbolId] ∧ _
      rw [List.mem_append, List.mem_singleton]
      refine and_congr_left fun isName => (or_iff_left ?_).symm
      rintro rfl
      have listed := (sound.listed found name other).mp (careful ⟨scope, found⟩ name isName)
      rw [List.contains_iff_mem] at isNew
      exact isNew listed.1
  · intro scope found name other
    rw [sameMembers found, ← sound.mapped found]
    split <;> rfl

end Sound

def ScopeTree.grown (tree : ScopeTree) (scopeId : ScopeId) (scope : Scope) : ScopeTree :=
  { tree.linked scopeId scope with
    ancestorCache := tree.ancestorCache.erase scopeId
    totalScopes := tree.totalScopes + 1 }

section Growing

variable {tree : ScopeTree} {scopeId : ScopeId} {parentId : Option ScopeId} {depth : Nat}
variable (notOwn : parentId ≠ some scopeId)

include notOwn

theorem ScopeTree.getScope_linked (other : ScopeId) :
    (tree.linked scopeId (Scope.new parentId depth)).getScope other =
      if other = scopeId then some (Scope.new parentId depth)
      else (tree.getScope other).map fun scope =>
        if parentId = some other then scope.addChild scopeId else scope := by
  unfold ScopeTree.getScope ScopeTree.linked
  cases parentId with
  | none =>
      show (tree.scopesById.insert scopeId _).get? other = _
      rw [OrdMap.get?_insert]
      split
      · rfl
      · simp
  | some parentId =>
      show ((tree.scopesById.insert scopeId _).modify parentId _).get? other = _
      rw [OrdMap.get?_modify, OrdMap.get?_insert]
      by_cases isNew : other = scopeId
      · subst isNew
        rw [if_neg fun same => notOwn (congrArg some same.symm), if_pos rfl, if_pos rfl]
      · rw [if_neg isNew, if_neg isNew]
        by_cases isParent : other = parentId
        · subst isParent
          simp
        · have different : ¬some parentId = some other := fun same =>
            isParent (Option.some.inj same).symm
          simp [isParent, different]

theorem ScopeTree.addScope_eq :
    tree.addScope scopeId (Scope.new parentId depth) =
      .ok (tree.grown scopeId (Scope.new parentId depth)) := by
  have childless : (tree.linked scopeId (Scope.new parentId depth)).getChildren scopeId = [] := by
    unfold ScopeTree.getChildren
    rw [ScopeTree.getScope_linked notOwn, if_pos rfl]
    rfl
  unfold ScopeTree.addScope ScopeTree.invalidateAncestorCache ScopeTree.getDescendants
  rw [ScopeTree.descendantsWithin, childless, List.reverse_nil, List.nil_append,
    ScopeTree.descendantsWithin]
  rfl

end Growing

theorem ScopeTree.length_grown {tree : ScopeTree} {scopeId : ScopeId} (scope : Scope)
    (isNew : tree.getScope scopeId = none) :
    (tree.grown scopeId scope).scopesById.entries.length = tree.scopesById.entries.length + 1 := by
  rw [← OrdMap.length_insert_of_new tree.scopesById scope isNew]
  unfold grown linked
  cases scope.parentId with
  | none => rfl
  | some parentId => exact List.length_map _

namespace Sound

variable (sound : Sound symbolTable history)

include sound

theorem grown {scopeId : ScopeId} {parentId : Option ScopeId} {depth : Nat}
    {given : List ScopeId} (isNew : ¬history.isScope scopeId) (unawaited : ¬Awaited history scopeId)
    (notOwn : parentId ≠ some scopeId)
    (deeper : ∀ parent scope, parentId = some parent → history.tree.getScope parent = some scope →
      depth = scope.depth + 1)
    (shallow : depth ≤ history.tree.scopesById.entries.length)
    (more : ∀ other ∈ history.given, other ∈ given)
    (accounted : scopeId ∈ given ∨ scopeId < history.tree.totalScopes + 1) :
    Sound symbolTable ⟨history.tree.grown scopeId (Scope.new parentId depth), history.declared,
      given⟩ := by
  have lookup : ∀ other, (history.tree.grown scopeId (Scope.new parentId depth)).getScope other =
      if other = scopeId then some (Scope.new parentId depth)
      else (history.tree.getScope other).map fun scope =>
        if parentId = some other then scope.addChild scopeId else scope :=
    ScopeTree.getScope_linked notOwn
  have wasNone : history.tree.getScope scopeId = none := by
    cases found : history.tree.getScope scopeId with
    | none => rfl
    | some scope => exact absurd ⟨scope, found⟩ isNew
  have elsewhere : ∀ {other scope},
      (history.tree.grown scopeId (Scope.new parentId depth)).getScope other = some scope →
      other ≠ scopeId → ∃ before, history.tree.getScope other = some before ∧
        scope.parentId = before.parentId ∧ scope.depth = before.depth ∧
        scope.symbols = before.symbols ∧ scope.getSymbol = before.getSymbol := by
    intro other scope found different
    rw [lookup, if_neg different] at found
    obtain ⟨before, wasThere, rfl⟩ := Option.map_eq_some_iff.mp found
    refine ⟨before, wasThere, ?_⟩
    split <;> simp
  have atNew : ∀ {scope},
      (history.tree.grown scopeId (Scope.new parentId depth)).getScope scopeId = some scope →
        scope = Scope.new parentId depth := by
    intro scope found
    rw [lookup, if_pos rfl] at found
    exact (Option.some.inj found).symm
  have parents : ∀ other, other ≠ scopeId →
      ((history.tree.grown scopeId (Scope.new parentId depth)).getScope other).bind
        (·.parentId) = (history.tree.getScope other).bind (·.parentId) := by
    intro other different
    rw [lookup, if_neg different]
    cases history.tree.getScope other with
    | none => rfl
    | some before =>
        rw [Option.map_some, Option.bind_some, Option.bind_some]
        split <;> simp
  have size := ScopeTree.length_grown (Scope.new parentId depth) wasNone
  constructor
  · intro other scope found name symbolId
    by_cases same : other = scopeId
    · subst same
      rw [atNew found]
      show (name, symbolId) ∈ history.declared other ↔ symbolId ∈ [] ∧ _
      rw [sound.absent wasNone]
      simp
    · obtain ⟨before, wasThere, -, -, sameSymbols, -⟩ := elsewhere found same
      rw [sameSymbols]
      exact sound.listed wasThere name symbolId
  · intro other scope found name symbolId
    by_cases same : other = scopeId
    · subst same
      rw [atNew found]
      show none = some symbolId ↔ (name, symbolId) ∈ history.declared other
      rw [sound.absent wasNone]
      simp
    · obtain ⟨before, wasThere, -, -, -, sameMap⟩ := elsewhere found same
      rw [sameMap]
      exact sound.mapped wasThere name symbolId
  · intro other absent
    change (history.tree.grown scopeId (Scope.new parentId depth)).getScope other = none at absent
    rw [lookup] at absent
    split at absent
    · cases absent
    · exact sound.absent (Option.map_eq_none_iff.mp absent)
  · rintro other ⟨scope, found⟩
    by_cases same : other = scopeId
    · exact same ▸ accounted
    · obtain ⟨before, wasThere, -⟩ := elsewhere found same
      exact (sound.counted ⟨before, wasThere⟩).imp (more other) Nat.lt_succ_of_lt
  · intro other parent scope above found isParent isAbove
    by_cases same : other = scopeId
    · subst same
      rw [atNew found] at isParent ⊢
      have different : parent ≠ other := fun same => notOwn (same ▸ isParent)
      obtain ⟨before, wasThere, -, sameDepth, -⟩ := elsewhere isAbove different
      rw [sameDepth]
      exact deeper parent before isParent wasThere
    · obtain ⟨before, wasThere, sameParent, sameDepth, -⟩ := elsewhere found same
      rw [sameParent] at isParent
      have different : parent ≠ scopeId := by
        rintro rfl
        exact unawaited ⟨other, before, wasThere, isParent⟩
      obtain ⟨before', wasThere', -, sameDepth', -⟩ := elsewhere isAbove different
      rw [sameDepth, sameDepth']
      exact sound.depth_eq wasThere isParent wasThere'
  · intro other scope found
    show scope.depth < (history.tree.grown scopeId (Scope.new parentId depth)).scopesById.entries.length
    rw [size]
    by_cases same : other = scopeId
    · subst same
      rw [atNew found]
      exact Nat.lt_succ_of_le shallow
    · obtain ⟨before, wasThere, -, sameDepth, -⟩ := elsewhere found same
      rw [sameDepth]
      exact Nat.lt_succ_of_lt (sound.shallow wasThere)
  · -- A chain that does not begin at the new scope does not come there.
    intro other chain found
    have kept : ∀ {from' : ScopeId} {chain : List ScopeId},
        ParentChain history.tree from' chain → from' ≠ scopeId →
        ParentChain (history.tree.grown scopeId (Scope.new parentId depth)) from' chain := by
      intro from' chain isChain
      induction isChain with
      | ends last => exact fun different => .ends ((parents _ different).trans last)
      | @next child parent rest isParent further ih =>
          intro different
          refine .next ((parents _ different).trans isParent) (ih ?_)
          rintro rfl
          obtain ⟨before, wasThere, isParent'⟩ := Option.bind_eq_some_iff.mp isParent
          exact unawaited ⟨child, before, wasThere, isParent'⟩
    change (history.tree.ancestorCache.erase scopeId).get? other = some chain at found
    rw [OrdMap.get?_erase] at found
    split at found
    · cases found
    · rename_i different
      exact kept (sound.cached found) different

theorem nextId_isNew (few : history.tree.totalScopes < 2 ^ 32)
    (unclaimed : history.tree.totalScopes ∉ history.given) :
    history.tree.nextId = history.tree.totalScopes ∧
      ¬history.isScope history.tree.totalScopes := by
  refine ⟨Nat.mod_eq_of_lt few, fun there => ?_⟩
  rcases sound.counted there with given | before
  · exact unclaimed given
  · exact Nat.lt_irrefl _ before

theorem createScope {parentId : Option ScopeId}
    (careful : Careful symbolTable history (.createScope parentId)) :
    Yields (· = .noCurrentScope) (Sound symbolTable)
      (history.step symbolTable (.createScope parentId)) := by
  obtain ⟨few, unclaimed, notOwn, unawaited⟩ := careful
  obtain ⟨isTotal, isNew⟩ := sound.nextId_isNew few unclaimed
  simp only [History.step, ScopeTree.perform]
  unfold ScopeTree.createScope
  rw [isTotal, ScopeTree.addScope_eq notOwn]
  refine sound.grown isNew unawaited notOwn ?_ ?_ (fun _ member => member)
    (.inr (Nat.lt_succ_self _))
  · intro parent scope isParent found
    rw [isParent, Option.bind_some, found]
    rfl
  · cases found : parentId.bind history.tree.getScope with
    | none => exact Nat.zero_le _
    | some scope =>
        obtain ⟨parent, -, found'⟩ := Option.bind_eq_some_iff.mp found
        exact sound.shallow found'

theorem enterScope {scopeId : ScopeId} (promised : Promised history (.enterScope scopeId))
    (careful : Careful symbolTable history (.enterScope scopeId)) :
    Yields (· = .noCurrentScope) (Sound symbolTable)
      (history.step symbolTable (.enterScope scopeId)) := by
  simp only [History.step, ScopeTree.perform]
  unfold ScopeTree.enterScope
  cases found : history.tree.getScope history.tree.currentScopeId with
  | none => exact rfl
  | some current =>
      have notOwn : some history.tree.currentScopeId ≠ some scopeId := by
        intro same
        rw [Option.some.injEq] at same
        exact promised ⟨current, same ▸ found⟩
      have next := @grown symbolTable history sound scopeId (some history.tree.currentScopeId)
        (current.depth + 1) (scopeId :: history.given) promised careful notOwn
        (fun parent scope isParent found' => by
          rw [Option.some.injEq] at isParent
          subst isParent
          rw [found, Option.some.injEq] at found'
          rw [found'])
        (sound.shallow found) (fun _ member => List.mem_cons_of_mem _ member)
        (.inl List.mem_cons_self)
      simp only
      rw [ScopeTree.addScope_eq notOwn]
      exact next.recached scopeId next.cached

theorem step {operation : Operation} (promised : Promised history operation)
    (careful : Careful symbolTable history operation) :
    Yields (· = .noCurrentScope) (Sound symbolTable) (history.step symbolTable operation) := by
  cases operation with
  | createScope parentId => exact sound.createScope careful
  | enterScope scopeId => exact sound.enterScope promised careful
  | exitScope =>
      simp only [History.step, ScopeTree.perform]
      unfold ScopeTree.exitScope
      cases history.tree.getScope history.tree.currentScopeId with
      | none => exact rfl
      | some current =>
          cases parent : current.parentId with
          | none =>
              simp only [parent]
              exact sound.recached history.tree.currentScopeId sound.cached
          | some parentId =>
              simp only [parent]
              exact sound.recached parentId sound.cached
  | setCurrentScope scopeId =>
      simp only [History.step, ScopeTree.perform]
      unfold ScopeTree.setCurrentScope
      by_cases there : history.tree.scopesById.contains scopeId = true
      · rw [if_pos there]
        exact sound.recached scopeId sound.cached
      · rw [if_neg there]
        exact sound.recached history.tree.currentScopeId sound.cached
  | addSymbol scopeId symbolId symbolName => exact sound.addSymbol careful
  | removeSymbol scopeId symbolId symbolName => exact sound.removeSymbol careful
  | addSymbolToScope scopeId symbolId => exact sound.addSymbolToScope careful
  | getAncestors scopeId =>
      obtain ⟨ancestors, cache, isAncestors, next⟩ := sound.remembered
      simp only [History.step, ScopeTree.perform]
      rw [isAncestors]
      exact next
  | resolveName startScopeId name =>
      simp only [History.step, ScopeTree.perform]
      unfold ScopeTree.resolveName
      cases history.tree.ownSymbol name startScopeId with
      | some symbolId => exact sound.recached history.tree.currentScopeId sound.cached
      | none =>
          obtain ⟨ancestors, cache, isAncestors, next⟩ := sound.remembered
          simp only
          rw [isAncestors]
          exact next
  | resolveSymbolFromScope startScope name =>
      simp only [History.step, ScopeTree.perform]
      unfold ScopeTree.resolveSymbolFromScope
      cases history.tree.knownSymbol symbolTable name startScope with
      | some found => exact sound.recached history.tree.currentScopeId sound.cached
      | none =>
          obtain ⟨ancestors, cache, isAncestors, next⟩ := sound.remembered
          simp only
          rw [isAncestors]
          exact next

theorem fresh {operation : Operation} (careful : Careful symbolTable history operation) :
    ¬Reuses history operation := by
  cases operation with
  | createScope parentId =>
      obtain ⟨isTotal, isNew⟩ := sound.nextId_isNew careful.1 careful.2.1
      show ¬history.isScope history.tree.nextId
      rw [isTotal]
      exact isNew
  | _ => exact fun reuses => reuses

end Sound

theorem alwaysAgrees_of_sound (operations : List Operation) : ∀ {history : History},
    Sound symbolTable history →
    Along (fun history operation =>
      Promised history operation ∧ Careful symbolTable history operation) symbolTable history
      operations →
    AlwaysAgrees symbolTable history operations := by
  induction operations with
  | nil => exact fun sound _ => sound.agrees
  | cons operation operations ih =>
      intro history sound ⟨⟨promised, careful⟩, later⟩
      refine ⟨sound.agrees, sound.fresh careful, ?_⟩
      have stepped := sound.step promised careful
      cases outcome : history.step symbolTable operation with
      | error failure =>
          rw [outcome] at stepped
          exact stepped
      | ok next =>
          rw [outcome] at stepped
          exact ih stepped (later next outcome)

/-- In every run of careful operations on a new tree the lookups agree throughout. -/
theorem alwaysAgrees_of_careful (symbolTable : SymbolTable) (globalScopeId : ScopeId)
    (operations : List Operation)
    (promised : Along Promised symbolTable (.start globalScopeId) operations)
    (careful : Along (Careful symbolTable) symbolTable (.start globalScopeId) operations) :
    AlwaysAgrees symbolTable (.start globalScopeId) operations := by
  have both : ∀ (operations : List Operation) (history : History),
      Along Promised symbolTable history operations →
      Along (Careful symbolTable) symbolTable history operations →
      Along (fun history operation =>
        Promised history operation ∧ Careful symbolTable history operation) symbolTable history
        operations := by
    intro operations
    induction operations with
    | nil => exact fun _ _ _ => trivial
    | cons operation operations ih =>
        intro history promised careful
        exact ⟨⟨promised.1, careful.1⟩, fun next outcome =>
          ih next (promised.2 next outcome) (careful.2 next outcome)⟩
  exact alwaysAgrees_of_sound operations (sound_start globalScopeId)
    (both operations _ promised careful)

def twoSymbols : SymbolTable where
  symbolsById := OrdMap.ofList [(1, ⟨1, 0⟩), (2, ⟨2, 0⟩)]
  keyed := by
    intro id symbol found
    have member := OrdMap.mem_of_get?_ofList found
    simp only [List.mem_cons, List.not_mem_nil, or_false, Prod.mk.injEq] at member
    rcases member with ⟨rfl, rfl⟩ | ⟨rfl, rfl⟩ <;> rfl

/-- The name is declared in the global scope and again in a scope inside. -/
def shadowed : List Operation := [.addSymbol 0 1 0, .createScope (some 0), .addSymbol 1 2 0]

theorem shadowed_agrees : Along Promised twoSymbols (.start 0) shadowed ∧
    Along (Careful twoSymbols) twoSymbols (.start 0) shadowed ∧
    AlwaysAgrees twoSymbols (.start 0) shadowed := by
  have promised : Along Promised twoSymbols (.start 0) shadowed := by
    refine ⟨trivial, fun first isFirst => ⟨trivial, fun second isSecond => ⟨trivial, ?_⟩⟩⟩
    exact fun _ _ => trivial
  have careful : Along (Careful twoSymbols) twoSymbols (.start 0) shadowed := by
    refine ⟨fun _ => ⟨rfl, fun pair member => by cases member⟩, fun first isFirst => ?_⟩
    obtain rfl := Except.ok.inj isFirst
    refine ⟨⟨by decide, by decide, by decide, ?_⟩, fun second isSecond => ?_⟩
    · rintro ⟨child, scope, found, isParent⟩
      have member := (OrdMap.mem_entries_iff _ _ _).mpr found
      cases List.mem_singleton.mp member
      cases isParent
    · obtain rfl := Except.ok.inj isSecond
      exact ⟨fun _ => ⟨rfl, fun pair member => by cases member⟩, fun _ _ => trivial⟩
  exact ⟨promised, careful, alwaysAgrees_of_careful twoSymbols 0 shadowed promised careful⟩

/-- The name is declared twice in one scope. -/
def redeclared : List Operation := [.addSymbol 0 1 0, .addSymbol 0 2 0]

/-- The map of the scope has the later symbol and its list the earlier one first. -/
theorem redeclared_disagrees : Along Promised twoSymbols (.start 0) redeclared ∧
    ¬AlwaysAgrees twoSymbols (.start 0) redeclared := by
  constructor
  · exact ⟨trivial, fun _ _ => ⟨trivial, fun _ _ => trivial⟩⟩
  · intro always
    obtain ⟨chain, -, resolved, looked, -⟩ := always.2.2.2.2.resolves 0 0
    have apart := resolved.trans looked.symm
    revert apart
    decide

end Rayzor.Scopes
