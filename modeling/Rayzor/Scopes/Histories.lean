import Rayzor.Library.Outcome
import Rayzor.Scopes.Tree

/-!
Contract: what a scope tree is to answer after any sequence of operations.
-/

namespace Rayzor.Scopes

open Library (OrdMap)

/-- A tree with what was declared in it, newest first and less what was removed, and the ids that
callers gave. -/
structure History where
  tree : ScopeTree
  declared : ScopeId → List (InternedString × SymbolId)
  given : List ScopeId

namespace History

def start (globalScopeId : ScopeId) : History := ⟨.new globalScopeId, fun _ => [], [globalScopeId]⟩

def isScope (history : History) (scopeId : ScopeId) : Prop :=
  ∃ scope, history.tree.getScope scopeId = some scope

def declaring (history : History) (symbolTable : SymbolTable) :
    Operation → ScopeId → List (InternedString × SymbolId)
  | .addSymbol scopeId symbolId symbolName, other =>
      if other = scopeId ∧ history.tree.scopesById.contains scopeId then
        (symbolName, symbolId) :: history.declared other
      else history.declared other
  | .addSymbolToScope scopeId symbolId, other =>
      if other = scopeId ∧ history.tree.scopesById.contains scopeId then
        ((symbolTable.nameOf symbolId).map (·, symbolId)).toList ++ history.declared other
      else history.declared other
  | .removeSymbol scopeId symbolId _, other =>
      if other = scopeId then (history.declared other).filter (·.2 ≠ symbolId)
      else history.declared other
  | _, other => history.declared other

def giving (history : History) : Operation → List ScopeId
  | .enterScope scopeId => scopeId :: history.given
  | _ => history.given

def step (history : History) (symbolTable : SymbolTable) (operation : Operation) :
    Except Failure History :=
  (history.tree.perform symbolTable operation).map fun tree =>
    ⟨tree, history.declaring symbolTable operation, history.giving operation⟩

/-- The symbol most recently declared under the name in the scope and not removed. -/
def newest (history : History) (name : InternedString) (scopeId : ScopeId) : Option SymbolId :=
  ((history.declared scopeId).find? (·.1 == name)).map Prod.snd

end History

/-- The parents of a scope, nearest first. -/
inductive ParentChain (tree : ScopeTree) : ScopeId → List ScopeId → Prop where
  | ends {scopeId : ScopeId} (last : (tree.getScope scopeId).bind (·.parentId) = none) :
      ParentChain tree scopeId []
  | next {scopeId parentId : ScopeId} {rest : List ScopeId}
      (isParent : (tree.getScope scopeId).bind (·.parentId) = some parentId)
      (further : ParentChain tree parentId rest) : ParentChain tree scopeId (parentId :: rest)

/-- The answers of a tree are those of lexical scoping. -/
structure Agrees (symbolTable : SymbolTable) (history : History) : Prop where
  ancestors : ∀ scopeId, ∃ chain, ParentChain history.tree scopeId chain ∧
    (history.tree.getAncestors scopeId).map Prod.fst = .ok chain
  resolves : ∀ scopeId name, ∃ chain, ParentChain history.tree scopeId chain ∧
    (history.tree.resolveName scopeId name).map Prod.fst =
      .ok ((scopeId :: chain).findSome? (history.newest name)) ∧
    history.tree.lookupSymbolInScopeChain symbolTable scopeId name =
      .ok ((scopeId :: chain).findSome? (history.newest name)) ∧
    (history.tree.resolveSymbolFromScope symbolTable scopeId name).map
        (·.1.map fun found => found.1.id) =
      .ok ((scopeId :: chain).findSome? (history.newest name))
  depth_eq : ∀ {scopeId parentId scope parent}, history.tree.getScope scopeId = some scope →
    scope.parentId = some parentId → history.tree.getScope parentId = some parent →
    scope.depth = parent.depth + 1

def Reuses (history : History) : Operation → Prop
  | .createScope _ => history.isScope history.tree.nextId
  | _ => False

/-- Before the operations and after each of them the tree agrees, no id is reused, and an operation
gives no tree back only when there is no current scope. -/
def AlwaysAgrees (symbolTable : SymbolTable) (history : History) : List Operation → Prop
  | [] => Agrees symbolTable history
  | operation :: operations =>
      Agrees symbolTable history ∧ ¬Reuses history operation ∧
        Library.Yields (· = .noCurrentScope)
          (fun next => AlwaysAgrees symbolTable next operations)
          (history.step symbolTable operation)

/-- Scope ids given by a caller are new. -/
def Promised (history : History) : Operation → Prop
  | .enterScope scopeId => ¬history.isScope scopeId
  | _ => True

/-- Some scope was created as a child of the one with the id, which was not there. -/
def Awaited (history : History) (scopeId : ScopeId) : Prop :=
  ∃ child scope, history.tree.getScope child = some scope ∧ scope.parentId = some scopeId

/-- What the operations may do without bringing the representations of a scope apart. -/
def Careful (symbolTable : SymbolTable) (history : History) : Operation → Prop
  | .createScope parentId =>
      history.tree.totalScopes < 2 ^ 32 ∧ history.tree.totalScopes ∉ history.given ∧
        parentId ≠ some history.tree.totalScopes ∧ ¬Awaited history history.tree.totalScopes
  | .enterScope scopeId => ¬Awaited history scopeId
  | .addSymbol scopeId symbolId symbolName =>
      history.isScope scopeId → symbolTable.nameOf symbolId = some symbolName ∧
        ∀ pair ∈ history.declared scopeId, pair.1 = symbolName → pair.2 = symbolId
  | .removeSymbol scopeId symbolId symbolName =>
      ∀ pair ∈ history.declared scopeId, pair.2 = symbolId ↔ pair.1 = symbolName
  | .addSymbolToScope scopeId symbolId =>
      history.isScope scopeId → ∀ name, symbolTable.nameOf symbolId = some name →
        (name, symbolId) ∈ history.declared scopeId
  | _ => True

/-- Each operation of the run meets a condition at its turn. -/
def Along (condition : History → Operation → Prop) (symbolTable : SymbolTable)
    (history : History) : List Operation → Prop
  | [] => True
  | operation :: operations =>
      condition history operation ∧ ∀ next, history.step symbolTable operation = .ok next →
        Along condition symbolTable next operations

end Rayzor.Scopes
