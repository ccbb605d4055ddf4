import Rayzor.Library.OperatorTrees
import Rayzor.Parser.Expressions

/-!
Contract: what `parse_binary` makes of a sequence of operands and binary operators.
-/

namespace Rayzor.Parser.Expressions

open Library

/-- The levels of `parse_binary`. The operator of `=>` is read elsewhere, below all of them. -/
def ladder : Precedences BinaryOp where
  level
    | .arrow => 0
    | .or => 3
    | .and => 4
    | .range => 5
    | .eq | .notEq | .lt | .le | .gt | .ge | .is => 6
    | .nullCoal => 7
    | .bitOr | .bitXor | .bitAnd => 8
    | .shl | .shr | .ushr => 9
    | .add | .sub => 10
    | .mul | .div => 11
    | .mod => 12
    | .in' => 13
  fromRight op := op = .in'
  uniform {first second} := by cases first <;> cases second <;> decide

theorem ladder_of_binaryOperator {kind : TokenKind} {op : BinaryOp} {prec : Nat}
    {rightAssoc : Bool} (isOperator : binaryOperator kind = some (op, prec, rightAssoc)) :
    prec = ladder.level op ∧ rightAssoc = ladder.fromRight op := by
  cases kind <;>
    simp only [binaryOperator, Option.some.injEq, Prod.mk.injEq, reduceCtorEq] at isOperator <;>
    (obtain ⟨rfl, rfl, rfl⟩ := isOperator; exact ⟨rfl, rfl⟩)

variable {Node Metadata : Type} {parsers : Subparsers Node Metadata}

def treeExpr : OperatorTree BinaryOp (Expr Node Metadata) → Expr Node Metadata
  | .operand value => value
  | .node left op right =>
      .binary (treeExpr left) op (treeExpr right)
        ((treeExpr left).span.merge (treeExpr right).span)

theorem bind_ok {α β : Type} {first : Except ParseError α} {next : α → Except ParseError β}
    {result : β} (computes : (first >>= next) = .ok result) :
    ∃ value, first = .ok value ∧ next value = .ok result := by
  cases first with
  | error failure => exact nomatch computes
  | ok value => exact ⟨value, rfl, computes⟩

theorem postfixLoop_succ (fuel : Nat) :
    ∀ {expr : Expr Node Metadata} {stream : TokenStream} {result},
      postfixLoop parsers fuel expr stream = .ok result →
        postfixLoop parsers (fuel + 1) expr stream = .ok result := by
  induction fuel with
  | zero => intro expr stream result computes; exact nomatch computes
  | succ fuel ih =>
      intro expr stream result computes
      rw [postfixLoop] at computes ⊢
      split at computes
      · exact ih computes
      · exact ih computes
      · obtain ⟨index, indexed, computes⟩ := bind_ok computes
        obtain ⟨bracket, closed, computes⟩ := bind_ok computes
        rw [indexed]
        show (index.2.expect .rBracket >>= _) = _
        rw [closed]
        exact ih computes
      · obtain ⟨args, called, computes⟩ := bind_ok computes
        rw [called]
        exact ih computes
      · split at computes
        · exact ih computes
        · exact computes

theorem operand_succ (fuel : Nat) :
    (∀ {stream : TokenStream} {result}, parseUnary parsers fuel stream = .ok result →
      parseUnary parsers (fuel + 1) stream = .ok result) ∧
    (∀ {stream : TokenStream} {result}, parsePostfix parsers fuel stream = .ok result →
      parsePostfix parsers (fuel + 1) stream = .ok result) ∧
    (∀ {stream : TokenStream} {result}, parsePrimary parsers fuel stream = .ok result →
      parsePrimary parsers (fuel + 1) stream = .ok result) := by
  induction fuel with
  | zero =>
      refine ⟨fun computes => ?_, fun computes => ?_, fun computes => ?_⟩ <;> exact nomatch computes
  | succ fuel ih =>
      obtain ⟨unary, postfix', primary⟩ := ih
      refine ⟨fun {stream result} computes => ?_, fun {stream result} computes => ?_,
        fun {stream result} computes => ?_⟩
      · rw [parseUnary] at computes ⊢
        dsimp only at computes ⊢
        generalize (if stream.isAt .atSign ∨ stream.isAt .atColon then parsers.metadataList stream
          else ([], stream)) = read at computes ⊢
        split at computes
        · obtain ⟨inner, parsed, computes⟩ := bind_ok computes
          rw [if_pos ‹_›, unary parsed]
          exact computes
        · rw [if_neg ‹_›]
          split at computes
          · obtain ⟨inner, parsed, computes⟩ := bind_ok computes
            rw [unary parsed]
            exact computes
          · exact postfix' computes
      · rw [parsePostfix] at computes ⊢
        obtain ⟨first, parsed, computes⟩ := bind_ok computes
        rw [primary parsed]
        exact postfixLoop_succ fuel computes
      · rw [parsePrimary] at computes ⊢
        split at computes
        · rw [if_pos ‹_›]
          exact unary computes
        · rw [if_neg ‹_›]
          exact computes

theorem parseUnary_mono {fuel more : Nat} {stream : TokenStream}
    {result : Expr Node Metadata × TokenStream}
    (computes : parseUnary parsers fuel stream = .ok result) (enough : fuel ≤ more) :
    parseUnary parsers more stream = .ok result := by
  induction enough with
  | refl => exact computes
  | step _ ih => exact (operand_succ _).1 ih

/-- The operand at a place, and where it ends: what `parse_unary` reads, or the arrow
function that it is the parameter of. -/
inductive OperandAt (parsers : Subparsers Node Metadata) :
    TokenStream → Expr Node Metadata → TokenStream → Bool → Prop
  | plain {fuel : Nat} {stream stop : TokenStream} {expr : Expr Node Metadata}
      (parses : parseUnary parsers fuel stream = .ok (expr, stop))
      (noArrow : stop.isAt .arrow = false) : OperandAt parsers stream expr stop false
  | arrow {fuel : Nat} {stream afterParam stop : TokenStream} {param body : Expr Node Metadata}
      {name : List UInt8} (parses : parseUnary parsers fuel stream = .ok (param, afterParam))
      (isArrow : afterParam.isAt .arrow = true) (named : arrowParam param = some name)
      (bodyParses : parsers.expression afterParam.advance = .ok (body, stop)) :
      OperandAt parsers stream (.arrow name body ⟨param.span.start, body.span.stop⟩) stop true

/-- The operators after an operand, each with the operand after it, up to a token that is no
binary operator. The body of an arrow function takes all the operators there are. -/
inductive Follows (parsers : Subparsers Node Metadata) :
    TokenStream → List (BinaryOp × Expr Node Metadata) → TokenStream → Prop
  | done {stream : TokenStream} (noOperator : binaryOperator stream.peek.kind = none) :
      Follows parsers stream [] stream
  | operator {stream middle stop : TokenStream} {op : BinaryOp} {prec : Nat} {rightAssoc : Bool}
      {expr : Expr Node Metadata} {isArrow : Bool} {rest : List (BinaryOp × Expr Node Metadata)}
      (isOperator : binaryOperator stream.peek.kind = some (op, prec, rightAssoc))
      (operand : OperandAt parsers stream.advance expr middle isArrow)
      (last : isArrow = true → rest = []) (follows : Follows parsers middle rest stop) :
      Follows parsers stream ((op, expr) :: rest) stop

theorem postfixLoop_isBinary (fuel : Nat) :
    ∀ {expr : Expr Node Metadata} {stream : TokenStream} {result},
      postfixLoop parsers fuel expr stream = .ok result → expr.isBinary = false →
        result.1.isBinary = false := by
  induction fuel with
  | zero => intro expr stream result computes; exact nomatch computes
  | succ fuel ih =>
      intro expr stream result computes whole
      rw [postfixLoop] at computes
      split at computes
      · exact ih computes rfl
      · exact ih computes rfl
      · obtain ⟨index, indexed, computes⟩ := bind_ok computes
        obtain ⟨bracket, closed, computes⟩ := bind_ok computes
        exact ih computes rfl
      · obtain ⟨args, called, computes⟩ := bind_ok computes
        exact ih computes rfl
      · split at computes
        · exact ih computes rfl
        · cases computes
          exact whole

theorem isBinary_negated (operandIsIntLit : Bool) (op : UnaryOp) (expr : Expr Node Metadata)
    (span : Span) : (negated operandIsIntLit op expr span).isBinary = false := by
  unfold negated
  split
  · split_ifs <;> rfl
  · rfl

theorem isBinary_annotated (start : Nat) {metas : List Metadata} (some' : metas ≠ [])
    (expr : Expr Node Metadata) : (annotated start metas expr).isBinary = false := by
  cases metas with
  | nil => exact absurd rfl some'
  | cons first rest => rfl

theorem operand_isBinary (fuel : Nat) :
    (∀ {stream : TokenStream} {result}, parseUnary parsers fuel stream = .ok result →
      result.1.isBinary = false) ∧
    (∀ {stream : TokenStream} {result}, parsePostfix parsers fuel stream = .ok result →
      result.1.isBinary = false) ∧
    (∀ {stream : TokenStream} {result}, parsePrimary parsers fuel stream = .ok result →
      result.1.isBinary = false) := by
  induction fuel with
  | zero =>
      refine ⟨fun computes => ?_, fun computes => ?_, fun computes => ?_⟩ <;> exact nomatch computes
  | succ fuel ih =>
      obtain ⟨unary, postfix', primary⟩ := ih
      refine ⟨fun {stream result} computes => ?_, fun {stream result} computes => ?_,
        fun {stream result} computes => ?_⟩
      · rw [parseUnary] at computes
        dsimp only at computes
        generalize (if stream.isAt .atSign ∨ stream.isAt .atColon then parsers.metadataList stream
          else ([], stream)) = read at computes
        split at computes
        · obtain ⟨inner, parsed, computes⟩ := bind_ok computes
          cases computes
          exact isBinary_annotated _ ‹_› _
        · split at computes
          · obtain ⟨inner, parsed, computes⟩ := bind_ok computes
            cases computes
            exact isBinary_negated _ _ _ _
          · exact postfix' computes
      · rw [parsePostfix] at computes
        obtain ⟨first, parsed, computes⟩ := bind_ok computes
        exact postfixLoop_isBinary fuel computes (primary parsed)
      · rw [parsePrimary] at computes
        split at computes
        · exact unary computes
        · obtain ⟨first, parsed, computes⟩ := bind_ok computes
          cases computes
          rfl

/-- No operand is itself a binary expression: parentheses, prefix and postfix operators wrap
what is inside them. -/
theorem OperandAt.isBinary {stream stop : TokenStream} {expr : Expr Node Metadata} {isArrow : Bool}
    (operand : OperandAt parsers stream expr stop isArrow) : expr.isBinary = false := by
  cases operand with
  | plain parses noArrow => exact (operand_isBinary _).1 parses
  | arrow parses isArrow named bodyParses => rfl

theorem Follows.isBinary {stream stop : TokenStream} {rest : List (BinaryOp × Expr Node Metadata)}
    (follows : Follows parsers stream rest stop) : ∀ next ∈ rest, next.2.isBinary = false := by
  induction follows with
  | done noOperator => exact fun _ member => nomatch member
  | operator isOperator operand last follows ih =>
      intro next member
      rcases List.mem_cons.mp member with rfl | inRest
      · exact operand.isBinary
      · exact ih next inRest

theorem treeExpr_operands (tree : OperatorTree BinaryOp (Expr Node Metadata))
    (whole : ∀ value ∈ tree.operands, value.isBinary = false) :
    (treeExpr tree).operands = tree.operands ∧ (treeExpr tree).operators = tree.operators := by
  induction tree with
  | operand value =>
      have isWhole := whole value (List.mem_singleton_self value)
      cases value with
      | binary left op right span => exact nomatch isWhole
      | _ => exact ⟨rfl, rfl⟩
  | node left op right leftSame rightSame =>
      have leftWhole := leftSame fun value member => whole value (List.mem_append_left _ member)
      have rightWhole := rightSame fun value member => whole value (List.mem_append_right _ member)
      constructor
      · rw [treeExpr, Expr.operands, leftWhole.1, rightWhole.1, OperatorTree.operands]
      · rw [treeExpr, Expr.operators, leftWhole.2, rightWhole.2, OperatorTree.operators]

/-- The operators that are left, if any, begin with one below `minPrec`. -/
def Stops (minPrec : Nat) (left : List (BinaryOp × Expr Node Metadata)) : Prop :=
  ∀ next ∈ left.head?, ladder.level next.1 < minPrec

/-- The tree that the loop makes of the tree it starts with and the operators that follow -/
structure Climbed (parsers : Subparsers Node Metadata) (minPrec : Nat)
    (before : OperatorTree BinaryOp (Expr Node Metadata))
    (rest : List (BinaryOp × Expr Node Metadata)) (stop : TokenStream)
    (tree : OperatorTree BinaryOp (Expr Node Metadata))
    (left : List (BinaryOp × Expr Node Metadata)) (stream : TokenStream) : Prop where
  taken : ∃ taken, rest = taken ++ left ∧
    tree.operands = before.operands ++ taken.map Prod.snd ∧
    tree.operators = before.operators ++ taken.map Prod.fst
  respects : tree.Respects ladder
  bounded : ∀ op ∈ tree.operators, minPrec ≤ ladder.level op
  stops : Stops minPrec left
  follows : Follows parsers stream left stop

theorem Climbed.none {minPrec : Nat} {before : OperatorTree BinaryOp (Expr Node Metadata)}
    {rest : List (BinaryOp × Expr Node Metadata)} {stream stop : TokenStream}
    (follows : Follows parsers stream rest stop) (stops : Stops minPrec rest)
    (respects : before.Respects ladder)
    (bounded : ∀ op ∈ before.operators, minPrec ≤ ladder.level op) :
    Climbed parsers minPrec before rest stop before rest stream where
  taken := ⟨[], rfl, (List.append_nil _).symm, (List.append_nil _).symm⟩
  respects := respects
  bounded := bounded
  stops := stops
  follows := follows

/-- The tree so far may be the left operand of the next operator, if that is taken. -/
def Fits (minPrec : Nat) (before : OperatorTree BinaryOp (Expr Node Metadata))
    (rest : List (BinaryOp × Expr Node Metadata)) : Prop :=
  ∀ next ∈ rest.head?, minPrec ≤ ladder.level next.1 →
    ∀ root ∈ before.root, ladder.MayBeLeft root next.1

def LoopClimbs (parsers : Subparsers Node Metadata) (count : Nat) : Prop :=
  ∀ {minPrec : Nat} {before : OperatorTree BinaryOp (Expr Node Metadata)}
    {rest : List (BinaryOp × Expr Node Metadata)} {stream stop : TokenStream},
    rest.length ≤ count → Follows parsers stream rest stop → before.Respects ladder →
    (∀ op ∈ before.operators, minPrec ≤ ladder.level op) → Fits minPrec before rest →
    ∃ tree left stream', Climbed parsers minPrec before rest stop tree left stream' ∧
      ∃ enough, ∀ fuel, enough ≤ fuel →
        binaryLoop parsers fuel minPrec (treeExpr before) stream = .ok (treeExpr tree, stream')

theorem parseBinary_climbs (minPrec : Nat) {count : Nat} (loop : LoopClimbs parsers count)
    {expr : Expr Node Metadata} {isArrow : Bool} {rest : List (BinaryOp × Expr Node Metadata)}
    {stream middle stop : TokenStream} (short : rest.length ≤ count)
    (operand : OperandAt parsers stream expr middle isArrow) (last : isArrow = true → rest = [])
    (follows : Follows parsers middle rest stop) :
    ∃ tree left stream', Climbed parsers minPrec (.operand expr) rest stop tree left stream' ∧
      ∃ enough, ∀ fuel, enough ≤ fuel →
        parseBinary parsers fuel minPrec stream = .ok (treeExpr tree, stream') := by
  cases operand with
  | plain parses noArrow =>
      rename_i needed
      obtain ⟨tree, left, stream', climbed, enough, computes⟩ :=
        @loop minPrec (.operand expr) rest middle stop short follows trivial
          (fun _ member => nomatch member) (fun _ _ _ _ isRoot => nomatch isRoot)
      refine ⟨tree, left, stream', climbed, max needed enough + 1, fun fuel more => ?_⟩
      cases fuel with
      | zero => omega
      | succ fuel =>
          rw [parseBinary, parseUnary_mono parses (by omega)]
          show (if middle.isAt .arrow then _ else _) = _
          rw [noArrow]
          exact computes fuel (by omega)
  | arrow parses isArrow' named bodyParses =>
      rename_i needed afterParam param body name
      have noRest := last rfl
      subst noRest
      refine ⟨.operand _, [], middle, .none follows (fun _ member => nomatch member)
        trivial (fun _ member => nomatch member), needed + 1, fun fuel more => ?_⟩
      cases fuel with
      | zero => omega
      | succ fuel =>
          rw [parseBinary, parseUnary_mono parses (by omega)]
          show (if afterParam.isAt .arrow then _ else _) = _
          rw [isArrow', if_pos rfl, named]
          show (parsers.expression _ >>= _) = _
          rw [bodyParses]
          rfl

/-- The level that `parse_binary` asks of the right operand of an operator -/
def nextLevel (op : BinaryOp) : Nat :=
  if ladder.fromRight op then ladder.level op else ladder.level op + 1

theorem level_le_nextLevel (op : BinaryOp) : ladder.level op ≤ nextLevel op := by
  rw [nextLevel]
  split_ifs <;> omega

theorem mayBeRight_of_nextLevel {op inner : BinaryOp} (le : nextLevel op ≤ ladder.level inner) :
    ladder.MayBeRight inner op := by
  rw [nextLevel] at le
  rw [Precedences.MayBeRight]
  split_ifs at le ⊢ <;> omega

/-- What ends the right operand of an operator may have the operator on its left. -/
theorem mayBeLeft_of_nextLevel {op next : BinaryOp} (lt : ladder.level next < nextLevel op) :
    ladder.MayBeLeft op next := by
  have uniform := @ladder.uniform next op
  rw [nextLevel] at lt
  rw [Precedences.MayBeLeft]
  by_cases opRight : ladder.fromRight op = true
  · rw [if_pos opRight] at lt
    split_ifs <;> omega
  · rw [if_neg opRight] at lt
    split_ifs with nextRight
    · have differs : ladder.level next ≠ ladder.level op := fun same =>
        opRight ((uniform same).symm.trans nextRight)
      omega
    · omega

/-- One turn of the loop: the next operator joins the tree so far and the tree of its right
operand. -/
theorem Climbed.join {minPrec : Nat} {op : BinaryOp} {expr : Expr Node Metadata}
    {before right : OperatorTree BinaryOp (Expr Node Metadata)}
    {rest left : List (BinaryOp × Expr Node Metadata)} {stream stop : TokenStream}
    (climbed : Climbed parsers (nextLevel op) (.operand expr) rest stop right left stream)
    (respects : before.Respects ladder)
    (bounded : ∀ inner ∈ before.operators, minPrec ≤ ladder.level inner)
    (fits : Fits minPrec before ((op, expr) :: rest)) (above : minPrec ≤ ladder.level op) :
    (OperatorTree.node before op right).Respects ladder ∧
      (∀ inner ∈ (OperatorTree.node before op right).operators, minPrec ≤ ladder.level inner) ∧
      Fits minPrec (.node before op right) left := by
  refine ⟨⟨fits _ rfl above, fun root isRoot => ?_, respects, climbed.respects⟩,
    fun inner member => ?_, fun next isNext _ root isRoot => ?_⟩
  · apply mayBeRight_of_nextLevel
    apply climbed.bounded
    cases right with
    | operand value => exact nomatch isRoot
    | node first operator second =>
        cases isRoot
        exact List.mem_append_right _ List.mem_cons_self
  · rcases List.mem_append.mp member with inBefore | inRest
    · exact bounded inner inBefore
    · rcases List.mem_cons.mp inRest with rfl | inRight
      · exact above
      · exact (above.trans (level_le_nextLevel op)).trans (climbed.bounded inner inRight)
  · cases isRoot
    exact mayBeLeft_of_nextLevel (climbed.stops next isNext)

theorem Climbed.after {minPrec : Nat} {op : BinaryOp} {expr : Expr Node Metadata}
    {before right tree : OperatorTree BinaryOp (Expr Node Metadata)}
    {rest middle left : List (BinaryOp × Expr Node Metadata)} {stream stream' stop : TokenStream}
    (turn : Climbed parsers (nextLevel op) (.operand expr) rest stop right middle stream)
    (climbed : Climbed parsers minPrec (.node before op right) middle stop tree left stream') :
    Climbed parsers minPrec before ((op, expr) :: rest) stop tree left stream' where
  taken := by
    obtain ⟨first, isRest, rightOperands, rightOperators⟩ := turn.taken
    obtain ⟨second, isMiddle, operands, operators⟩ := climbed.taken
    refine ⟨(op, expr) :: first ++ second, ?_, ?_, ?_⟩
    · rw [isRest, isMiddle, List.cons_append, List.cons_append, List.append_assoc]
    · rw [operands, OperatorTree.operands, rightOperands]
      simp [OperatorTree.operands]
    · rw [operators, OperatorTree.operators, rightOperators]
      simp [OperatorTree.operators]
  respects := climbed.respects
  bounded := climbed.bounded
  stops := climbed.stops
  follows := climbed.follows

theorem binaryLoop_climbs (count : Nat) : LoopClimbs parsers count := by
  -- with no operator to take the loop is left at once
  have leaves {minPrec : Nat} {before : OperatorTree BinaryOp (Expr Node Metadata)}
      {stream : TokenStream} (none : binaryOperator stream.peek.kind = none) (fuel : Nat)
      (more : 1 ≤ fuel) : binaryLoop parsers fuel minPrec (treeExpr before) stream =
        .ok (treeExpr before, stream) := by
    cases fuel with
    | zero => omega
    | succ fuel => rw [binaryLoop, none]
  induction count with
  | zero =>
      intro minPrec before rest stream stop short follows respects bounded fits
      cases follows with
      | operator => simp at short
      | done noOperator =>
          exact ⟨before, [], stream, .none (.done noOperator) (fun _ member => nomatch member)
            respects bounded, 1, leaves noOperator⟩
  | succ count ih =>
      intro minPrec before rest stream stop short follows respects bounded fits
      cases follows with
      | done noOperator =>
          exact ⟨before, [], stream, .none (.done noOperator) (fun _ member => nomatch member)
            respects bounded, 1, leaves noOperator⟩
      | operator isOperator operand last follows =>
          rename_i middle op prec rightAssoc expr isArrow rest
          obtain ⟨rfl, rfl⟩ := ladder_of_binaryOperator isOperator
          by_cases below : ladder.level op < minPrec
          · refine ⟨before, _, stream, .none (.operator isOperator operand last follows)
              (fun next isNext => ?_) respects bounded, 1, fun fuel more => ?_⟩
            · cases isNext
              exact below
            · cases fuel with
              | zero => omega
              | succ fuel =>
                  rw [binaryLoop, isOperator]
                  exact if_pos below
          · rw [List.length_cons] at short
            obtain ⟨right, left, stream', turn, enough, computes⟩ :=
              parseBinary_climbs (nextLevel op) ih (by omega) operand
                last follows
            obtain ⟨joined, joinedBounded, joinedFits⟩ :=
              turn.join respects bounded fits (by omega)
            obtain ⟨first, isRest, _⟩ := turn.taken
            have shorter := congrArg List.length isRest
            rw [List.length_append] at shorter
            obtain ⟨tree, left', stream'', climbed, enough', computes'⟩ :=
              ih (by omega) turn.follows joined joinedBounded joinedFits
            refine ⟨tree, left', stream'', turn.after climbed, max enough enough' + 1,
              fun fuel more => ?_⟩
            cases fuel with
            | zero => omega
            | succ fuel =>
                rw [binaryLoop, isOperator]
                show (if _ then _ else _) = _
                rw [if_neg below]
                show (parseBinary parsers fuel (nextLevel op) _ >>= _) = _
                rw [computes fuel (by omega)]
                exact computes' fuel (by omega)

/-- Over a sequence of operands and operators the parser returns the expression of the one
tree that has them in order and respects the ladder, and stops behind the last operand. Its
flattening is the sequence, with every operand whole. -/
theorem parseBinary_ladder {expr : Expr Node Metadata} {isArrow : Bool}
    {rest : List (BinaryOp × Expr Node Metadata)} {stream middle stop : TokenStream}
    (operand : OperandAt parsers stream expr middle isArrow) (last : isArrow = true → rest = [])
    (follows : Follows parsers middle rest stop) :
    ∃ tree : OperatorTree BinaryOp (Expr Node Metadata),
      (∃ enough, ∀ fuel, enough ≤ fuel →
        parseBinary parsers fuel 0 stream = .ok (treeExpr tree, stop)) ∧
      (treeExpr tree).operands = expr :: rest.map Prod.snd ∧
      (treeExpr tree).operators = rest.map Prod.fst ∧
      tree.Respects ladder ∧
      ∀ other : OperatorTree BinaryOp (Expr Node Metadata), other.Respects ladder →
        other.operands = expr :: rest.map Prod.snd → other.operators = rest.map Prod.fst →
        other = tree := by
  obtain ⟨tree, left, stream', climbed, enough, computes⟩ :=
    parseBinary_climbs 0 (binaryLoop_climbs rest.length) (Nat.le_refl _) operand last follows
  obtain ⟨taken, isRest, operands, operators⟩ := climbed.taken
  cases left with
  | cons next left => exact absurd (climbed.stops next rfl) (Nat.not_lt_zero _)
  | nil =>
      rw [List.append_nil] at isRest
      subst isRest
      have isStop : stream' = stop := by
        cases climbed.follows
        rfl
      subst isStop
      have whole : ∀ value ∈ tree.operands, value.isBinary = false := by
        intro value member
        rw [operands] at member
        rcases List.mem_append.mp member with isFirst | inRest
        · rw [List.mem_singleton.mp isFirst]
          exact operand.isBinary
        · obtain ⟨next, inNext, rfl⟩ := List.mem_map.mp inRest
          exact follows.isBinary next inNext
      obtain ⟨exprOperands, exprOperators⟩ := treeExpr_operands tree whole
      refine ⟨tree, ⟨enough, computes⟩, exprOperands.trans operands,
        exprOperators.trans operators, climbed.respects, ?_⟩
      intro other respects sameOperands sameOperators
      exact respects.unique climbed.respects (sameOperands.trans operands.symm)
        (sameOperators.trans operators.symm)

def nameParsers : Subparsers Empty Empty where
  primary stream :=
    if stream.isAt .ident then
      .ok (.ident stream.currentText, stream.peek.span, stream.advance)
    else .error (.expected .ident stream.peek)
  expression stream := .error (.expected .ident stream.peek)
  callArgs stream := .error (.expected .rParen stream.peek)
  metadataList stream := ([], stream)
  statementShaped _ := false

/-- `a+b*c`, with the cursor in front of a token -/
def sumStream (pos : Nat) : TokenStream where
  tokens := [.new .ident 0 1, .new .plus 1 2, .new .ident 2 3, .new .star 3 4, .new .ident 4 5,
    .new .eof 5 5]
  pos := pos
  source := [97, 43, 98, 42, 99]
  remainder := none

theorem parseBinary_ladder_sum :
    ∃ tree : OperatorTree BinaryOp (Expr Empty Empty),
      (treeExpr tree).operators = [.add, .mul] ∧ tree.Respects ladder ∧
      ∃ enough, ∀ fuel, enough ≤ fuel →
        parseBinary nameParsers fuel 0 (sumStream 0) = .ok (treeExpr tree, sumStream 5) := by
  have a : OperandAt nameParsers (sumStream 0) (.primary (.ident [97]) ⟨0, 1⟩) (sumStream 1) false :=
    @OperandAt.plain _ _ _ 4 _ _ _ rfl rfl
  have b : OperandAt nameParsers (sumStream 2) (.primary (.ident [98]) ⟨2, 3⟩) (sumStream 3) false :=
    @OperandAt.plain _ _ _ 4 _ _ _ rfl rfl
  have c : OperandAt nameParsers (sumStream 4) (.primary (.ident [99]) ⟨4, 5⟩) (sumStream 5) false :=
    @OperandAt.plain _ _ _ 4 _ _ _ rfl rfl
  have afterB : Follows nameParsers (sumStream 3) [(.mul, .primary (.ident [99]) ⟨4, 5⟩)]
      (sumStream 5) := .operator rfl c (fun isArrow => nomatch isArrow) (.done rfl)
  have afterA : Follows nameParsers (sumStream 1) [(.add, .primary (.ident [98]) ⟨2, 3⟩),
      (.mul, .primary (.ident [99]) ⟨4, 5⟩)] (sumStream 5) :=
    .operator rfl b (fun isArrow => nomatch isArrow) afterB
  obtain ⟨tree, computes, _, operators, respects, _⟩ :=
    parseBinary_ladder a (fun isArrow => nomatch isArrow) afterA
  exact ⟨tree, operators, respects, computes⟩

end Rayzor.Parser.Expressions
