import Rayzor.Library.OrdMap

/-!
Contract: the tree of scopes that names are resolved in.

Owns: scopes with their symbols and parents, the operations that build the tree, and the three
lookups of a name.

Does not own: the kinds, names, lifetimes and locations of scopes, and what symbols are.
-/

namespace Rayzor.Scopes

open Library (OrdMap)

abbrev ScopeId := Nat

abbrev SymbolId := Nat

abbrev InternedString := Nat

structure Symbol where
  id : SymbolId
  name : InternedString
deriving DecidableEq

structure SymbolTable where
  symbolsById : OrdMap SymbolId Symbol
  keyed : ∀ {id symbol}, symbolsById.get? id = some symbol → symbol.id = id

namespace SymbolTable

def getSymbol (table : SymbolTable) (id : SymbolId) : Option Symbol := table.symbolsById.get? id

def nameOf (table : SymbolTable) (id : SymbolId) : Option InternedString :=
  (table.getSymbol id).map (·.name)

end SymbolTable

structure Scope where
  parentId : Option ScopeId
  children : List ScopeId
  symbols : List SymbolId
  depth : Nat
  symbolLookupCache : OrdMap InternedString SymbolId

namespace Scope

def new (parentId : Option ScopeId) (depth : Nat) : Scope where
  parentId := parentId
  children := []
  symbols := []
  depth := depth
  symbolLookupCache := .empty

def addChild (scope : Scope) (childId : ScopeId) : Scope :=
  if scope.children.contains childId then scope
  else { scope with children := scope.children ++ [childId] }

def addSymbol (scope : Scope) (symbolId : SymbolId) (symbolName : InternedString) : Scope :=
  { scope with
    symbols := scope.symbols ++ [symbolId]
    symbolLookupCache := scope.symbolLookupCache.insert symbolName symbolId }

def removeSymbol (scope : Scope) (symbolId : SymbolId) (symbolName : InternedString) : Scope :=
  { scope with
    symbols := scope.symbols.filter (· ≠ symbolId)
    symbolLookupCache := scope.symbolLookupCache.erase symbolName }

def getSymbol (scope : Scope) (name : InternedString) : Option SymbolId :=
  scope.symbolLookupCache.get? name

end Scope

/-- Why an operation gives no tree back: the scope it expects is not there, or it never ends. -/
inductive Failure where
  | noCurrentScope
  | runsOn
deriving DecidableEq

structure ScopeTree where
  scopesById : OrdMap ScopeId Scope
  currentScopeId : ScopeId
  ancestorCache : OrdMap ScopeId (List ScopeId)
  totalScopes : Nat

namespace ScopeTree

def getScope (tree : ScopeTree) (id : ScopeId) : Option Scope := tree.scopesById.get? id

def getChildren (tree : ScopeTree) (scopeId : ScopeId) : List ScopeId :=
  match tree.getScope scopeId with
  | none => []
  | some scope => scope.children.filter fun childId => (tree.getScope childId).isSome

/-- The descendants of the scopes to visit, the last one pushed first. -/
def descendantsWithin (tree : ScopeTree) :
    Nat → List ScopeId → List ScopeId → Except Failure (List ScopeId)
  | _, [], descendants => .ok descendants
  | 0, _ :: _, _ => .error .runsOn
  | fuel + 1, currentId :: toVisit, descendants =>
      tree.descendantsWithin fuel ((tree.getChildren currentId).reverse ++ toVisit)
        (descendants ++ tree.getChildren currentId)

/-- In a tree every scope is visited once, so this many steps are enough. -/
def getDescendants (tree : ScopeTree) (scopeId : ScopeId) : Except Failure (List ScopeId) :=
  tree.descendantsWithin (tree.scopesById.entries.length + 1) [scopeId] []

def invalidateAncestorCache (tree : ScopeTree) (scopeId : ScopeId) : Except Failure ScopeTree :=
  (tree.getDescendants scopeId).map fun descendants =>
    { tree with
      ancestorCache := descendants.foldl (fun cache id => cache.erase id)
        (tree.ancestorCache.erase scopeId) }

def linked (tree : ScopeTree) (scopeId : ScopeId) (scope : Scope) : ScopeTree :=
  { tree with
    scopesById :=
      match scope.parentId with
      | none => tree.scopesById.insert scopeId scope
      | some parentId =>
          (tree.scopesById.insert scopeId scope).modify parentId (·.addChild scopeId) }

def addScope (tree : ScopeTree) (scopeId : ScopeId) (scope : Scope) : Except Failure ScopeTree :=
  ((tree.linked scopeId scope).invalidateAncestorCache scopeId).map fun tree =>
    { tree with totalScopes := tree.totalScopes + 1 }

def new (globalScopeId : ScopeId) : ScopeTree where
  scopesById := OrdMap.empty.insert globalScopeId (Scope.new none 0)
  currentScopeId := globalScopeId
  ancestorCache := .empty
  totalScopes := 1

def nextId (tree : ScopeTree) : ScopeId := tree.totalScopes % 2 ^ 32

def createScope (tree : ScopeTree) (parentId : Option ScopeId) : Except Failure ScopeTree :=
  tree.addScope tree.nextId
    (Scope.new parentId (((parentId.bind tree.getScope).map (·.depth + 1)).getD 0))

def setCurrentScope (tree : ScopeTree) (scopeId : ScopeId) : ScopeTree :=
  if tree.scopesById.contains scopeId then { tree with currentScopeId := scopeId } else tree

def enterScope (tree : ScopeTree) (scopeId : ScopeId) : Except Failure ScopeTree :=
  match tree.getScope tree.currentScopeId with
  | none => .error .noCurrentScope
  | some current =>
      (tree.addScope scopeId (Scope.new (some tree.currentScopeId) (current.depth + 1))).map
        fun tree => { tree with currentScopeId := scopeId }

def exitScope (tree : ScopeTree) : Except Failure ScopeTree :=
  match tree.getScope tree.currentScopeId with
  | none => .error .noCurrentScope
  | some current =>
      match current.parentId with
      | none => .ok tree
      | some parentId => .ok { tree with currentScopeId := parentId }

def ancestorsWithin (tree : ScopeTree) : Nat → ScopeId → Except Failure (List ScopeId)
  | 0, _ => .error .runsOn
  | fuel + 1, currentId =>
      match (tree.getScope currentId).bind (·.parentId) with
      | none => .ok []
      | some parentId => (tree.ancestorsWithin fuel parentId).map (parentId :: ·)

def getAncestors (tree : ScopeTree) (scopeId : ScopeId) :
    Except Failure (List ScopeId × ScopeTree) :=
  match tree.ancestorCache.get? scopeId with
  | some cached => .ok (cached, tree)
  | none =>
      (tree.ancestorsWithin (tree.scopesById.entries.length + 1) scopeId).map fun ancestors =>
        (ancestors, { tree with ancestorCache := tree.ancestorCache.insert scopeId ancestors })

def ownSymbol (tree : ScopeTree) (name : InternedString) (scopeId : ScopeId) : Option SymbolId :=
  (tree.getScope scopeId).bind (·.getSymbol name)

def resolveName (tree : ScopeTree) (startScopeId : ScopeId) (name : InternedString) :
    Except Failure (Option SymbolId × ScopeTree) :=
  match tree.ownSymbol name startScopeId with
  | some symbolId => .ok (some symbolId, tree)
  | none =>
      (tree.getAncestors startScopeId).map fun found =>
        (found.1.findSome? (found.2.ownSymbol name), found.2)

def lookupWithin (tree : ScopeTree) (symbolTable : SymbolTable) (name : InternedString) :
    Nat → ScopeId → Except Failure (Option SymbolId)
  | 0, _ => .error .runsOn
  | fuel + 1, currentId =>
      match tree.getScope currentId with
      | none => .ok none
      | some scope =>
          match scope.symbols.find? fun symbolId => symbolTable.nameOf symbolId == some name with
          | some symbolId => .ok (some symbolId)
          | none =>
              match scope.parentId with
              | none => .ok none
              | some parentId => tree.lookupWithin symbolTable name fuel parentId

def lookupSymbolInScopeChain (tree : ScopeTree) (symbolTable : SymbolTable)
    (startScopeId : ScopeId) (name : InternedString) : Except Failure (Option SymbolId) :=
  tree.lookupWithin symbolTable name (tree.scopesById.entries.length + 1) startScopeId

/-- The symbol that a scope's own map has for a name, if the table knows it. -/
def knownSymbol (tree : ScopeTree) (symbolTable : SymbolTable) (name : InternedString)
    (scopeId : ScopeId) : Option (Symbol × ScopeId) :=
  ((tree.ownSymbol name scopeId).bind symbolTable.getSymbol).map (·, scopeId)

def resolveSymbolFromScope (tree : ScopeTree) (symbolTable : SymbolTable) (startScope : ScopeId)
    (name : InternedString) : Except Failure (Option (Symbol × ScopeId) × ScopeTree) :=
  match tree.knownSymbol symbolTable name startScope with
  | some found => .ok (some found, tree)
  | none =>
      (tree.getAncestors startScope).map fun found =>
        (found.1.findSome? (found.2.knownSymbol symbolTable name), found.2)

def modifyScope (tree : ScopeTree) (scopeId : ScopeId) (update : Scope → Scope) : ScopeTree :=
  { tree with scopesById := tree.scopesById.modify scopeId update }

/-- A symbol goes on the list of the scope. A scope that is not there is an error, which changes
nothing. -/
def addSymbolToScope (tree : ScopeTree) (scopeId : ScopeId) (symbolId : SymbolId) : ScopeTree :=
  tree.modifyScope scopeId fun scope =>
    if scope.symbols.contains symbolId then scope
    else { scope with symbols := scope.symbols ++ [symbolId] }

end ScopeTree

/-- What a caller does with a tree. The lookups change the cached ancestors. -/
inductive Operation where
  | createScope (parentId : Option ScopeId)
  | enterScope (scopeId : ScopeId)
  | exitScope
  | setCurrentScope (scopeId : ScopeId)
  | addSymbol (scopeId : ScopeId) (symbolId : SymbolId) (symbolName : InternedString)
  | removeSymbol (scopeId : ScopeId) (symbolId : SymbolId) (symbolName : InternedString)
  | addSymbolToScope (scopeId : ScopeId) (symbolId : SymbolId)
  | getAncestors (scopeId : ScopeId)
  | resolveName (startScopeId : ScopeId) (name : InternedString)
  | resolveSymbolFromScope (startScope : ScopeId) (name : InternedString)

def ScopeTree.perform (tree : ScopeTree) (symbolTable : SymbolTable) :
    Operation → Except Failure ScopeTree
  | .createScope parentId => tree.createScope parentId
  | .enterScope scopeId => tree.enterScope scopeId
  | .exitScope => tree.exitScope
  | .setCurrentScope scopeId => .ok (tree.setCurrentScope scopeId)
  | .addSymbol scopeId symbolId symbolName =>
      .ok (tree.modifyScope scopeId (·.addSymbol symbolId symbolName))
  | .removeSymbol scopeId symbolId symbolName =>
      .ok (tree.modifyScope scopeId (·.removeSymbol symbolId symbolName))
  | .addSymbolToScope scopeId symbolId => .ok (tree.addSymbolToScope scopeId symbolId)
  | .getAncestors scopeId => (tree.getAncestors scopeId).map Prod.snd
  | .resolveName startScopeId name => (tree.resolveName startScopeId name).map Prod.snd
  | .resolveSymbolFromScope startScope name =>
      (tree.resolveSymbolFromScope symbolTable startScope name).map Prod.snd

end Rayzor.Scopes
