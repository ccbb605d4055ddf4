import Rayzor.Moves.Events

/-!
Contract: use-after-move checking against the paths of a function.
-/

namespace Rayzor.Moves

open Library (Analysis GainsAndKeeps OrdMap)
open Library.Graph (EntryPath)
open Rayzor.Ir (IrBlockId IrControlFlowGraph)

/-! ### Paths -/

def eventsAt (events : List MoveEvent) (id : IrBlockId) : List MoveEvent :=
  (events.filter (·.block = id)).mergeSort fun first second => first.order ≤ second.order

def along (events : List MoveEvent) (path : List IrBlockId) : List MoveEvent :=
  path.reverse.flatMap (eventsAt events)

def Unbound (symbol : SymbolId) (trace : List MoveEvent) : Prop :=
  ∀ ev ∈ trace, ev.kind = .bind → ev.symbol ≠ symbol

def StillMoved (ev : MoveEvent) (trace : List MoveEvent) : Prop :=
  ∃ front between, trace = front ++ ev :: between ∧ ev.kind = .move ∧ Unbound ev.symbol between

def Edge (cfg : IrControlFlowGraph) (id next : IrBlockId) : Prop :=
  ∃ block, cfg.getBlock id = some block ∧ next ∈ block.successors

def before (events : List MoveEvent) (ev : MoveEvent) : List MoveEvent :=
  (eventsAt events ev.block).filter (·.order < ev.order)

/-- Some path from the entry reaches an event behind a move of its symbol, with no binding of it
between the two. -/
def Reaches (cfg : IrControlFlowGraph) (events : List MoveEvent) (moved ev : MoveEvent) : Prop :=
  moved.symbol = ev.symbol ∧ ∃ earlier, EntryPath (Edge cfg) cfg.entryBlock (ev.block :: earlier)
    ev.block ∧ StillMoved moved (along events earlier ++ before events ev)

def reportOf (pair : MoveEvent × MoveEvent) : Violation :=
  ⟨pair.1.symbol, pair.2.location, pair.1.location⟩

/-- The violations are those of the reads and moves that some move reaches, each once and with the
earliest such move. -/
def ReportsExactly (cfg : IrControlFlowGraph) (events : List MoveEvent)
    (violations : List Violation) : Prop :=
  ∃ reported : List (MoveEvent × MoveEvent), violations.Perm (reported.map reportOf) ∧
    (reported.map Prod.fst).Nodup ∧
    (∀ ev, ev ∈ reported.map Prod.fst ↔
      ev ∈ events ∧ ev.kind ≠ .bind ∧ ∃ moved, Reaches cfg events moved ev) ∧
    ∀ ev moved, (ev, moved) ∈ reported → Reaches cfg events moved ev ∧
      ∀ other, Reaches cfg events other ev → moved.order ≤ other.order

/-! ### Moves along a list of events -/

theorem unbound_append {symbol : SymbolId} {front back : List MoveEvent} :
    Unbound symbol (front ++ back) ↔ Unbound symbol front ∧ Unbound symbol back :=
  List.forall_mem_append

theorem stillMoved_append {ev : MoveEvent} {front back : List MoveEvent} :
    StillMoved ev (front ++ back) ↔
      StillMoved ev back ∨ StillMoved ev front ∧ Unbound ev.symbol back := by
  constructor
  · rintro ⟨earlier, between, split, isMove, unbound⟩
    rcases List.append_eq_append_iff.mp split with ⟨middle, rfl, rfl⟩ | ⟨middle, rfl, isRest⟩
    · exact Or.inl ⟨middle, between, rfl, isMove, unbound⟩
    · cases middle with
      | nil => exact Or.inl ⟨[], between, isRest.symm, isMove, unbound⟩
      | cons first middle =>
          rw [List.cons_append, List.cons.injEq] at isRest
          obtain ⟨rfl, rfl⟩ := isRest
          rw [unbound_append] at unbound
          exact Or.inr ⟨⟨earlier, middle, rfl, isMove, unbound.1⟩, unbound.2⟩
  · rintro (⟨earlier, between, rfl, isMove, unbound⟩ |
      ⟨⟨earlier, between, rfl, isMove, unbound⟩, unboundBack⟩)
    · exact ⟨front ++ earlier, between, (List.append_assoc _ _ _).symm, isMove, unbound⟩
    · refine ⟨earlier, between ++ back, ?_, isMove, unbound_append.mpr ⟨unbound, unboundBack⟩⟩
      rw [List.append_assoc, List.cons_append]

/-- A move of a symbol, no later than an event, still holds behind a list of events. -/
def MovedBy (ev : MoveEvent) (trace : List MoveEvent) : Prop :=
  ∃ moved, StillMoved moved trace ∧ moved.symbol = ev.symbol ∧ moved.order ≤ ev.order

theorem movedBy_append {ev : MoveEvent} {front back : List MoveEvent} :
    MovedBy ev (front ++ back) ↔
      MovedBy ev back ∨ MovedBy ev front ∧ Unbound ev.symbol back := by
  unfold MovedBy
  simp only [stillMoved_append]
  constructor
  · rintro ⟨moved, still | ⟨still, unbound⟩, isSymbol, early⟩
    · exact Or.inl ⟨moved, still, isSymbol, early⟩
    · exact Or.inr ⟨⟨moved, still, isSymbol, early⟩, isSymbol ▸ unbound⟩
  · rintro (⟨moved, still, isSymbol, early⟩ | ⟨⟨moved, still, isSymbol, early⟩, unbound⟩)
    · exact ⟨moved, Or.inl still, isSymbol, early⟩
    · exact ⟨moved, Or.inr ⟨still, isSymbol.symm ▸ unbound⟩, isSymbol, early⟩

theorem along_cons (events : List MoveEvent) (id : IrBlockId) (path : List IrBlockId) :
    along events (id :: path) = along events path ++ eventsAt events id := by
  simp [along]

/-! ### States -/

/-- The state of a binding after a move among the events. -/
def Stems (events : List MoveEvent) (symbol : SymbolId) (value : MovedState) : Prop :=
  ∃ ev ∈ events, ev.kind = .move ∧ ev.symbol = symbol ∧ value = ⟨true, some (ev.order, ev.location)⟩

def Good (events : List MoveEvent) (state : State) : Prop :=
  ∀ symbol value, state.get? symbol = some value → Stems events symbol value

def Holds (state : State) (ev : MoveEvent) : Prop :=
  ∃ value witness, state.get? ev.symbol = some value ∧ value.witness = some witness ∧
    witness.1 ≤ ev.order

section States

variable {events : List MoveEvent}

theorem good_empty : Good events OrdMap.empty := by
  intro symbol value found
  cases found

theorem not_holds_empty (ev : MoveEvent) : ¬Holds OrdMap.empty ev := by
  rintro ⟨value, witness, found, -⟩
  cases found

def joined (d : Option MovedState) (s : MovedState) : Option MovedState :=
  if s.moved = false ∧ s.witness = none then d else some (d.elim s fun d => d.join s)

theorem get?_joinEntry (dst : State × Bool) (entry : SymbolId × MovedState) (symbol : SymbolId) :
    (joinEntry dst entry).1.get? symbol =
      if symbol = entry.1 then joined (dst.1.get? symbol) entry.2 else dst.1.get? symbol := by
  unfold joinEntry joined
  by_cases skips : entry.2.moved = false ∧ entry.2.witness = none
  · simp [skips]
  · simp only [skips, if_false]
    by_cases same : symbol = entry.1
    · subst same
      cases found : dst.1.get? entry.1 <;> simp
    · cases found : dst.1.get? entry.1 <;> simp [same, OrdMap.get?_insert_of_ne]

theorem get?_joinEntries (entries : List (SymbolId × MovedState)) (symbol : SymbolId) :
    ∀ dst : State × Bool, entries.Pairwise (fun left right => left.1 < right.1) →
      (entries.foldl joinEntry dst).1.get? symbol =
        (OrdMap.lookup symbol entries).elim (dst.1.get? symbol) fun s =>
          joined (dst.1.get? symbol) s := by
  induction entries with
  | nil => exact fun _ _ => rfl
  | cons entry entries ih =>
      intro dst sorted
      obtain ⟨key, value⟩ := entry
      obtain ⟨below, restSorted⟩ := List.pairwise_cons.mp sorted
      rw [List.foldl_cons, ih _ restSorted, get?_joinEntry, OrdMap.lookup]
      by_cases same : symbol = key
      · subst same
        have none : OrdMap.lookup symbol entries = none := by
          by_contra found
          obtain ⟨value', found⟩ := Option.ne_none_iff_exists'.mp found
          have listed := (OrdMap.lookup_eq_some_iff restSorted symbol value').mp found
          exact lt_irrefl symbol (below (symbol, value') listed)
        simp [none]
      · simp [same]

theorem get?_joinInto (dst src : State) (symbol : SymbolId) :
    (joinInto dst src).1.get? symbol =
      (src.get? symbol).elim (dst.get? symbol) fun s => joined (dst.get? symbol) s :=
  get?_joinEntries src.entries symbol (dst, false) src.sorted

theorem Stems.join {symbol : SymbolId} {d s : MovedState} (stemsD : Stems events symbol d)
    (stemsS : Stems events symbol s) : ∃ dw sw, d.witness = some dw ∧ s.witness = some sw ∧
      joined (some d) s = some (if sw.1 < dw.1 then s else d) := by
  obtain ⟨dev, -, -, -, rfl⟩ := stemsD
  obtain ⟨sev, -, -, -, rfl⟩ := stemsS
  refine ⟨_, _, rfl, rfl, ?_⟩
  by_cases earlier : sev.order < dev.order <;>
    simp [joined, MovedState.join, MovedState.takes, earlier]

theorem joined_none {symbol : SymbolId} {s : MovedState} (stems : Stems events symbol s) :
    joined none s = some s := by
  obtain ⟨ev, -, -, -, rfl⟩ := stems
  simp [joined]

theorem good_joinInto {dst src : State} (goodDst : Good events dst) (goodSrc : Good events src) :
    Good events (joinInto dst src).1 := by
  intro symbol value found
  rw [get?_joinInto] at found
  cases inSrc : src.get? symbol with
  | none =>
      rw [inSrc] at found
      exact goodDst symbol value found
  | some s =>
      have stemsS := goodSrc symbol s inSrc
      cases inDst : dst.get? symbol with
      | none =>
          rw [inSrc, inDst, Option.elim_some, joined_none stemsS] at found
          cases found
          exact stemsS
      | some d =>
          have stemsD := goodDst symbol d inDst
          obtain ⟨dw, sw, -, -, isJoin⟩ := stemsD.join stemsS
          rw [inSrc, inDst, Option.elim_some, isJoin] at found
          cases found
          split_ifs
          · exact stemsS
          · exact stemsD

theorem holds_joinInto {dst src : State} (goodDst : Good events dst) (goodSrc : Good events src)
    (ev : MoveEvent) : Holds (joinInto dst src).1 ev ↔ Holds dst ev ∨ Holds src ev := by
  unfold Holds
  rw [get?_joinInto]
  cases inSrc : src.get? ev.symbol with
  | none => simp
  | some s =>
      have stemsS := goodSrc _ s inSrc
      cases inDst : dst.get? ev.symbol with
      | none =>
          rw [Option.elim_some, joined_none stemsS]
          simp
      | some d =>
          obtain ⟨dw, sw, isDw, isSw, isJoin⟩ := (goodDst _ d inDst).join stemsS
          rw [Option.elim_some, isJoin]
          simp only [Option.some.injEq, exists_eq_left', exists_and_left, isDw, isSw]
          split_ifs with earlier
          · simp only [isSw, Option.some.injEq, exists_eq_left']
            omega
          · simp only [isDw, Option.some.injEq, exists_eq_left']
            omega

theorem Good.after {state : State} (good : Good events state) {ev : MoveEvent}
    (isEvent : ev ∈ events) : Good events (state.after ev) := by
  intro symbol value found
  unfold State.after at found
  cases isKind : ev.kind with
  | bind =>
      rw [isKind] at found
      simp only [OrdMap.get?_erase] at found
      split_ifs at found
      exact good symbol value found
  | read =>
      rw [isKind] at found
      exact good symbol value found
  | move =>
      rw [isKind] at found
      simp only [OrdMap.get?_insert] at found
      split_ifs at found with same
      · have self : Stems events symbol ⟨true, some (ev.order, ev.location)⟩ :=
          ⟨ev, isEvent, isKind, same.symm, rfl⟩
        cases found
        split
        · next prev isPrior =>
          split_ifs
          · obtain ⟨prior, isAlready, isWitness⟩ := Option.bind_eq_some_iff.mp isPrior
            obtain ⟨isState, -⟩ := Option.filter_eq_some_iff.mp isAlready
            obtain ⟨moved, isMoved, isMove, isSymbol, rfl⟩ := good _ prior isState
            cases isWitness
            exact ⟨moved, isMoved, isMove, isSymbol.trans same.symm, rfl⟩
          · exact self
        · exact self
      · exact good symbol value found

theorem Good.prior {state : State} (good : Good events state) {ev : MoveEvent} :
    (state.already ev).bind (·.witness) = (state.get? ev.symbol).bind (·.witness) := by
  unfold State.already
  cases found : state.get? ev.symbol with
  | none => rfl
  | some value =>
      obtain ⟨moved, -, -, -, rfl⟩ := good _ value found
      rfl

theorem holds_iff_witness {state : State} {ev : MoveEvent} : Holds state ev ↔
    ∃ witness, (state.get? ev.symbol).bind (·.witness) = some witness ∧ witness.1 ≤ ev.order := by
  unfold Holds
  constructor
  · rintro ⟨value, witness, found, isWitness, early⟩
    exact ⟨witness, by rw [found]; exact isWitness, early⟩
  · rintro ⟨witness, isWitness, early⟩
    obtain ⟨value, found, isWitness⟩ := Option.bind_eq_some_iff.mp isWitness
    exact ⟨value, witness, found, isWitness, early⟩

/-- One event: a move is held from it on, a binding ends what its symbol held. -/
theorem Good.holds_after {state : State} (good : Good events state) (ev fact : MoveEvent) :
    Holds (state.after ev) fact ↔
      MovedBy fact [ev] ∨ Holds state fact ∧ Unbound fact.symbol [ev] := by
  have isUnbound : Unbound fact.symbol [ev] ↔ (ev.kind = .bind → ev.symbol ≠ fact.symbol) :=
    List.forall_mem_singleton
  have isMoved : MovedBy fact [ev] ↔
      ev.kind = .move ∧ ev.symbol = fact.symbol ∧ ev.order ≤ fact.order := by
    constructor
    · rintro ⟨moved, ⟨front, between, isSplit, isMove, -⟩, isSymbol, early⟩
      obtain ⟨rfl, rfl, rfl⟩ : front = [] ∧ moved = ev ∧ between = [] := by
        cases front with
        | nil => simpa [eq_comm] using isSplit
        | cons => simp at isSplit
      exact ⟨isMove, isSymbol, early⟩
    · rintro ⟨isMove, isSymbol, early⟩
      exact ⟨ev, ⟨[], [], rfl, isMove, fun _ inNil => absurd inNil List.not_mem_nil⟩, isSymbol,
        early⟩
  rw [isUnbound, isMoved, holds_iff_witness, holds_iff_witness]
  unfold State.after
  cases isKind : ev.kind with
  | bind =>
      simp only [OrdMap.get?_erase, reduceCtorEq, false_and, false_or, true_implies]
      by_cases same : fact.symbol = ev.symbol
      · simp [same]
      · simp [same, Ne.symm same]
  | read => simp
  | move =>
      simp only [OrdMap.get?_insert, true_and, reduceCtorEq, false_implies, and_true]
      by_cases same : fact.symbol = ev.symbol
      · rw [if_pos same, good.prior, same]
        cases isPrior : (state.get? ev.symbol).bind (·.witness) with
        | none => simp
        | some prev =>
            by_cases early : prev.1 ≤ ev.order
            · simp [early]
              omega
            · simp [early]
              omega
      · simp [same, Ne.symm same]

theorem Good.foldl_after {state : State} (good : Good events state) : ∀ {trace : List MoveEvent},
    (∀ ev ∈ trace, ev ∈ events) → Good events (trace.foldl State.after state) := by
  intro trace
  induction trace generalizing state with
  | nil => exact fun _ => good
  | cons ev trace ih =>
      intro areEvents
      exact ih (good.after (areEvents ev List.mem_cons_self))
        fun other isOther => areEvents other (List.mem_cons_of_mem _ isOther)

theorem Good.holds_foldl_after {state : State} (good : Good events state) (fact : MoveEvent) :
    ∀ {trace : List MoveEvent}, (∀ ev ∈ trace, ev ∈ events) →
      (Holds (trace.foldl State.after state) fact ↔
        MovedBy fact trace ∨ Holds state fact ∧ Unbound fact.symbol trace) := by
  intro trace
  induction trace generalizing state with
  | nil =>
      intro _
      have none : ¬MovedBy fact [] := by
        rintro ⟨moved, ⟨front, between, isSplit, -⟩, -⟩
        simp at isSplit
      have unbound : Unbound fact.symbol [] := fun _ inNil => absurd inNil List.not_mem_nil
      rw [or_iff_right none, and_iff_left unbound, List.foldl_nil]
  | cons ev trace ih =>
      intro areEvents
      have isEvent := areEvents ev List.mem_cons_self
      have split : ev :: trace = [ev] ++ trace := rfl
      rw [List.foldl_cons, ih (good.after isEvent)
        fun other isOther => areEvents other (List.mem_cons_of_mem _ isOther), good.holds_after,
        split, movedBy_append, unbound_append]
      tauto

theorem transfer_fst (trace : List MoveEvent) : ∀ state : State,
    (transfer trace state).1 = trace.foldl State.after state := by
  induction trace with
  | nil => exact fun _ => rfl
  | cons ev trace ih => exact fun state => ih _

end States

/-! ### The analysis -/

section Analysis

variable {cfg : IrControlFlowGraph} {events : List MoveEvent}

theorem getD_byBlock (id : IrBlockId) :
    ((byBlock events).get? id).getD [] = eventsAt events id := by
  have isGroup := OrdMap.getD_get?_group (events.map fun ev => (ev.block, ev)) id
  have same : (((events.map fun ev => (ev.block, ev)).filter (·.1 = id)).map Prod.snd) =
      events.filter (·.block = id) := by
    rw [List.filter_map, List.map_map]
    exact List.map_id _
  rw [same] at isGroup
  unfold byBlock eventsAt
  rw [OrdMap.get?_mapValues, ← isGroup]
  cases (OrdMap.group (events.map fun ev => (ev.block, ev))).get? id <;> simp

theorem mem_eventsAt {id : IrBlockId} {ev : MoveEvent} :
    ev ∈ eventsAt events id ↔ ev ∈ events ∧ ev.block = id := by
  unfold eventsAt
  rw [List.mem_mergeSort, List.mem_filter, decide_eq_true_eq]

theorem edge_moveflow {id next : IrBlockId} :
    (moveflow cfg events).Edge id next ↔ Edge cfg id next := by
  show next ∈ ((cfg.getBlock id).map (·.successors)).getD [] ↔ _
  unfold Edge
  cases cfg.getBlock id <;> simp

theorem mem_edges {id next : IrBlockId} : (id, next) ∈ cfg.edges ↔ Edge cfg id next := by
  unfold IrControlFlowGraph.edges Edge
  simp only [List.mem_flatMap, List.mem_map, Prod.mk.injEq]
  constructor
  · rintro ⟨entry, isEntry, target, isTarget, rfl, rfl⟩
    exact ⟨entry.2, (cfg.blocks.mem_entries_iff _ _).mp isEntry, isTarget⟩
  · rintro ⟨block, isBlock, isTarget⟩
    exact ⟨(id, block), (cfg.blocks.mem_entries_iff _ _).mpr isBlock, next, isTarget, rfl, rfl⟩

theorem mem_predecessors {id next : IrBlockId} :
    id ∈ (moveflow cfg events).predecessors next ↔ (moveflow cfg events).Edge id next := by
  rw [edge_moveflow, ← mem_edges]
  show id ∈ ((preds cfg).get? next).getD [] ↔ _
  unfold preds
  rw [OrdMap.getD_get?_group]
  simp

theorem eq_of_order (distinct : (events.map (·.order)).Nodup) {first second : MoveEvent}
    (isFirst : first ∈ events) (isSecond : second ∈ events) (same : first.order = second.order) :
    first = second :=
  List.inj_on_of_nodup_map distinct isFirst isSecond same

theorem Good.value_of_same {state other : State} (good : Good events state)
    (goodOther : Good events other) (same : ∀ ev ∈ events, Holds state ev ↔ Holds other ev)
    {symbol : SymbolId} {value : MovedState} (isValue : state.get? symbol = some value) :
    ∃ ev ∈ events, ∃ first ∈ events, value = ⟨true, some (ev.order, ev.location)⟩ ∧
      other.get? symbol = some ⟨true, some (first.order, first.location)⟩ ∧
        first.order ≤ ev.order := by
  obtain ⟨ev, isEvent, -, rfl, rfl⟩ := good symbol value isValue
  obtain ⟨value', witness, isValue', isWitness, early⟩ :=
    (same ev isEvent).mp ⟨_, _, isValue, rfl, le_rfl⟩
  obtain ⟨first, isFirst, -, -, rfl⟩ := goodOther _ value' isValue'
  cases isWitness
  exact ⟨ev, isEvent, first, isFirst, rfl, isValue', early⟩

theorem Good.ext (distinct : (events.map (·.order)).Nodup) {left right : State}
    (goodLeft : Good events left) (goodRight : Good events right)
    (same : ∀ ev ∈ events, Holds left ev ↔ Holds right ev) : left = right := by
  have same' : ∀ ev ∈ events, Holds right ev ↔ Holds left ev :=
    fun ev isEvent => (same ev isEvent).symm
  apply OrdMap.ext
  intro symbol
  cases inLeft : left.get? symbol with
  | none =>
      cases inRight : right.get? symbol with
      | none => rfl
      | some value =>
          obtain ⟨_, _, _, _, _, isValue, _⟩ := goodRight.value_of_same goodLeft same' inRight
          rw [inLeft] at isValue
          cases isValue
  | some value =>
      obtain ⟨ev, isEvent, first, isFirst, rfl, inRight, early⟩ :=
        goodLeft.value_of_same goodRight same inLeft
      obtain ⟨first', _, ev', isEvent', isValue', inLeft', late⟩ :=
        goodRight.value_of_same goodLeft same' inRight
      rw [inLeft] at inLeft'
      simp only [Option.some.injEq, MovedState.mk.injEq, Prod.mk.injEq, true_and]
        at isValue' inLeft'
      rw [inRight, eq_of_order distinct isEvent isFirst (by omega)]

/-- The blocks a fixpoint may come to. -/
def blocksOf (cfg : IrControlFlowGraph) : List IrBlockId :=
  cfg.entryBlock :: cfg.edges.map Prod.snd

/-- The laws of the analysis: a block makes the moves that still hold at its end, and keeps those
it does not bind. -/
def moveflowLaws (cfg : IrControlFlowGraph) (distinct : (events.map (·.order)).Nodup) :
    GainsAndKeeps (moveflow cfg events) MoveEvent where
  Good := Good events
  Holds := Holds
  Gains id fact := MovedBy fact (eventsAt events id)
  Keeps id fact := Unbound fact.symbol (eventsAt events id)
  nodes := blocksOf cfg
  facts := events
  good_bottom := good_empty
  good_join := good_joinInto
  good_transfer id good := by
    show Good events (transfer _ _).1
    rw [transfer_fst, getD_byBlock]
    exact good.foldl_after fun ev isEvent => (mem_eventsAt.mp isEvent).1
  holds_bottom := not_holds_empty
  holds_join := holds_joinInto
  holds_transfer id good fact := by
    show Holds (transfer _ _).1 fact ↔ _
    rw [transfer_fst, getD_byBlock]
    exact good.holds_foldl_after fact fun ev isEvent => (mem_eventsAt.mp isEvent).1
  ext := Good.ext distinct
  predecessors := mem_predecessors
  entry_mem := List.mem_cons_self
  successors_mem isEdge :=
    List.mem_cons_of_mem _ (List.mem_map.mpr ⟨_, mem_edges.mpr (edge_moveflow.mp isEdge), rfl⟩)

/-! ### Paths and the fixpoint -/

theorem edge_eq : (moveflow cfg events).Edge = Edge cfg :=
  funext fun _ => funext fun _ => propext edge_moveflow

theorem exists_earlier {path : List IrBlockId} {id : IrBlockId}
    (walk : EntryPath (Edge cfg) cfg.entryBlock path id) : ∃ earlier, path = id :: earlier := by
  cases walk
  · exact ⟨_, rfl⟩
  · exact ⟨_, rfl⟩

theorem leaves_iff (distinct : (events.map (·.order)).Nodup) {id : IrBlockId} {fact : MoveEvent} :
    (moveflowLaws cfg distinct).Leaves id fact ↔
      ∃ path, EntryPath (Edge cfg) cfg.entryBlock path id ∧ MovedBy fact (along events path) := by
  constructor
  · intro leaves
    induction leaves with
    | gained reached gains =>
        rw [edge_eq] at reached
        obtain ⟨path, walk⟩ := reached
        obtain ⟨earlier, rfl⟩ := exists_earlier walk
        refine ⟨_, walk, ?_⟩
        rw [along_cons, movedBy_append]
        exact Or.inl gains
    | kept leaves isEdge keeps ih =>
        obtain ⟨path, walk, moved⟩ := ih
        refine ⟨_, walk.step (edge_moveflow.mp isEdge), ?_⟩
        rw [along_cons, movedBy_append]
        exact Or.inr ⟨moved, keeps⟩
  · rintro ⟨path, walk, moved⟩
    have reached : ∀ {path id}, EntryPath (Edge cfg) cfg.entryBlock path id →
        Library.Graph.Reachable (moveflow cfg events).Edge (moveflow cfg events).entry id :=
      fun walk => (edge_eq : (moveflow cfg events).Edge = Edge cfg) ▸ ⟨_, walk⟩
    induction walk with
    | start =>
        rw [along_cons, movedBy_append] at moved
        rcases moved with gains | ⟨moved, keeps⟩
        · exact .gained (reached .start) gains
        · obtain ⟨_, ⟨front, between, isSplit, -⟩, -⟩ := moved
          simp [along] at isSplit
    | step earlier isEdge ih =>
        rw [along_cons, movedBy_append] at moved
        rcases moved with gains | ⟨moved, keeps⟩
        · exact .gained (reached (earlier.step isEdge)) gains
        · exact .kept (ih moved) (edge_moveflow.mpr isEdge) keeps

/-- Some path brings a move to an event, no later than another event. -/
def Arrives (cfg : IrControlFlowGraph) (events : List MoveEvent) (id : IrBlockId)
    (front : List MoveEvent) (fact : MoveEvent) : Prop :=
  ∃ earlier, EntryPath (Edge cfg) cfg.entryBlock (id :: earlier) id ∧
    MovedBy fact (along events earlier ++ front)

theorem arrives_iff (distinct : (events.map (·.order)).Nodup) {id : IrBlockId}
    (reached : Library.Graph.Reachable (Edge cfg) cfg.entryBlock id) (front : List MoveEvent)
    (fact : MoveEvent) : Arrives cfg events id front fact ↔ MovedBy fact front ∨
      (moveflowLaws cfg distinct).Enters id fact ∧ Unbound fact.symbol front := by
  constructor
  · rintro ⟨earlier, walk, moved⟩
    rw [movedBy_append] at moved
    apply moved.imp_right
    rintro ⟨moved, unbound⟩
    refine ⟨?_, unbound⟩
    cases walk with
    | start =>
        obtain ⟨_, ⟨front, between, isSplit, -⟩, -⟩ := moved
        simp [along] at isSplit
    | step walk isEdge =>
        exact ⟨_, edge_moveflow.mpr isEdge, (leaves_iff distinct).mpr ⟨_, walk, moved⟩⟩
  · rintro (moved | ⟨⟨pred, isEdge, leaves⟩, unbound⟩)
    · obtain ⟨path, walk⟩ := reached
      obtain ⟨earlier, rfl⟩ := exists_earlier walk
      exact ⟨earlier, walk, movedBy_append.mpr (Or.inl moved)⟩
    · obtain ⟨path, walk, moved⟩ := (leaves_iff distinct).mp leaves
      exact ⟨path, walk.step (edge_moveflow.mp isEdge), movedBy_append.mpr (Or.inr ⟨moved, unbound⟩)⟩

/-! ### What is reported -/

def moveBefore (events : List MoveEvent) (state : State) (ev : MoveEvent) : Option MoveEvent :=
  (state.prior ev).bind fun prior => events.find? (·.order = prior.1)

/-- The violations of a block, with the events they are about. -/
def uses (events : List MoveEvent) : List MoveEvent → State → List (MoveEvent × MoveEvent)
  | [], _ => []
  | ev :: rest, state =>
      ((moveBefore events state ev).map (ev, ·)).toList ++ uses events rest (state.after ev)

theorem Good.moveBefore_of_prior {state : State} (good : Good events state)
    (distinct : (events.map (·.order)).Nodup) {ev : MoveEvent} {prior : Nat × SourceLocation}
    (isPrior : state.prior ev = some prior) :
    ∃ moved ∈ events, moveBefore events state ev = some moved ∧ ev.kind ≠ .bind ∧
      moved.symbol = ev.symbol ∧ prior = (moved.order, moved.location) ∧
      state.get? ev.symbol = some ⟨true, some (moved.order, moved.location)⟩ := by
  have isPrior' := isPrior
  unfold State.prior at isPrior'
  split_ifs at isPrior' with notBind
  rw [good.prior] at isPrior'
  obtain ⟨value, found, isWitness⟩ := Option.bind_eq_some_iff.mp isPrior'
  obtain ⟨moved, isMoved, -, isSymbol, rfl⟩ := good _ value found
  cases isWitness
  refine ⟨moved, isMoved, ?_, notBind, isSymbol, rfl, found⟩
  unfold moveBefore
  rw [isPrior, Option.bind_some]
  cases isFound : events.find? (·.order = moved.order) with
  | none =>
      have absent := List.find?_eq_none.mp isFound moved isMoved
      exact absurd (decide_eq_true rfl) absent
  | some other =>
      have same := List.find?_some isFound
      rw [decide_eq_true_eq] at same
      rw [eq_of_order distinct (List.mem_of_find?_eq_some isFound) isMoved same]

theorem Good.moveBefore_eq_some {state : State} (good : Good events state)
    (distinct : (events.map (·.order)).Nodup) {ev moved : MoveEvent} :
    moveBefore events state ev = some moved ↔ moved ∈ events ∧ ev.kind ≠ .bind ∧
      moved.symbol = ev.symbol ∧
      state.get? ev.symbol = some ⟨true, some (moved.order, moved.location)⟩ := by
  constructor
  · intro isMove
    obtain ⟨prior, isPrior, -⟩ := Option.bind_eq_some_iff.mp isMove
    obtain ⟨moved', isMoved, isMove', notBind, isSymbol, -, found⟩ :=
      good.moveBefore_of_prior distinct isPrior
    rw [isMove] at isMove'
    cases isMove'
    exact ⟨isMoved, notBind, isSymbol, found⟩
  · rintro ⟨isMoved, notBind, isSymbol, found⟩
    have isPrior : state.prior ev = some (moved.order, moved.location) := by
      unfold State.prior
      rw [if_neg notBind, good.prior, found]
      rfl
    obtain ⟨moved', isMoved', isMove, -, -, same, -⟩ := good.moveBefore_of_prior distinct isPrior
    rw [isMove, eq_of_order distinct isMoved isMoved' (congrArg Prod.fst same)]

theorem Good.transfer_snd (distinct : (events.map (·.order)).Nodup) (trace : List MoveEvent) :
    ∀ {state : State}, Good events state → (∀ ev ∈ trace, ev ∈ events) →
      (transfer trace state).2 = (uses events trace state).map reportOf := by
  induction trace with
  | nil => exact fun _ _ => rfl
  | cons ev trace ih =>
      intro state good areEvents
      have one : (state.violation ev).toList =
          ((moveBefore events state ev).map (ev, ·)).toList.map reportOf := by
        unfold State.violation
        cases isPrior : state.prior ev with
        | none => simp [moveBefore, isPrior]
        | some prior =>
            obtain ⟨moved, -, isMove, -, -, rfl, -⟩ := good.moveBefore_of_prior distinct isPrior
            simp [isMove, reportOf]
      rw [transfer, uses, List.map_append, one, ih
        (good.after (areEvents ev List.mem_cons_self))
        fun other isOther => areEvents other (List.mem_cons_of_mem _ isOther)]

theorem mem_uses (trace : List MoveEvent) {ev moved : MoveEvent} : ∀ {state : State},
    (ev, moved) ∈ uses events trace state ↔ ∃ front back, trace = front ++ ev :: back ∧
      moveBefore events (front.foldl State.after state) ev = some moved := by
  induction trace with
  | nil => simp [uses]
  | cons first trace ih =>
      intro state
      rw [uses, List.mem_append, ih]
      constructor
      · rintro (isFirst | ⟨front, back, rfl, isMove⟩)
        · simp only [Option.mem_toList, Option.map_eq_some_iff, Prod.mk.injEq] at isFirst
          obtain ⟨_, isMove, rfl, rfl⟩ := isFirst
          exact ⟨[], trace, rfl, isMove⟩
        · exact ⟨first :: front, back, rfl, isMove⟩
      · rintro ⟨front, back, isSplit, isMove⟩
        cases front with
        | nil =>
            cases isSplit
            left
            simpa using isMove
        | cons other front =>
            cases isSplit
            exact Or.inr ⟨front, back, rfl, isMove⟩

theorem uses_sublist (trace : List MoveEvent) : ∀ {state : State},
    ((uses events trace state).map Prod.fst).Sublist trace := by
  induction trace with
  | nil => exact fun {_} => .slnil
  | cons ev trace ih =>
      intro state
      rw [uses, List.map_append]
      cases moveBefore events state ev with
      | none => exact ih.cons _
      | some moved => exact ih.cons_cons _

end Analysis

/-! ### Blocks -/

section Blocks

variable {cfg : IrControlFlowGraph} {events : List MoveEvent}

theorem eventsAt_sorted (distinct : (events.map (·.order)).Nodup) (id : IrBlockId) :
    (eventsAt events id).Pairwise fun first second => first.order < second.order := by
  have sorted : (eventsAt events id).Pairwise fun first second => first.order ≤ second.order := by
    have ordered : (eventsAt events id).Pairwise fun first second =>
        decide (first.order ≤ second.order) = true :=
      List.pairwise_mergeSort (fun a b c => by simpa using le_trans)
        (fun a b => by simpa using le_total _ _) (events.filter (·.block = id))
    exact ordered.imp fun upTo => of_decide_eq_true upTo
  have once : ((eventsAt events id).map (·.order)).Nodup := by
    have perm := (List.mergeSort_perm (events.filter (·.block = id)) fun first second =>
      decide (first.order ≤ second.order)).map (·.order)
    exact perm.nodup_iff.mpr (distinct.sublist (List.filter_sublist.map _))
  exact (sorted.and (List.pairwise_map.mp once)).imp fun both => lt_of_le_of_ne both.1 both.2

theorem before_eq (distinct : (events.map (·.order)).Nodup) {ev : MoveEvent}
    {front back : List MoveEvent} (split : eventsAt events ev.block = front ++ ev :: back) :
    before events ev = front := by
  have sorted := eventsAt_sorted distinct ev.block
  rw [split, List.pairwise_append, List.pairwise_cons] at sorted
  obtain ⟨-, ⟨later, -⟩, earlier⟩ := sorted
  unfold before
  rw [split, List.filter_append, List.filter_cons_of_neg (by simp)]
  have all : front.filter (·.order < ev.order) = front := by
    rw [List.filter_eq_self]
    exact fun other isOther => decide_eq_true (earlier other isOther ev List.mem_cons_self)
  have none : back.filter (·.order < ev.order) = [] := by
    rw [List.filter_eq_nil_iff]
    intro other isOther isLess
    exact absurd (of_decide_eq_true isLess) (later other isOther).not_gt
  rw [all, none, List.append_nil]

theorem exists_split {ev : MoveEvent} (isEvent : ev ∈ events) :
    ∃ front back, eventsAt events ev.block = front ++ ev :: back :=
  List.append_of_mem (mem_eventsAt.mpr ⟨isEvent, rfl⟩)

theorem mem_byBlock {id : IrBlockId} {list : List MoveEvent} :
    (id, list) ∈ (byBlock events).entries ↔
      (∃ ev ∈ events, ev.block = id) ∧ list = eventsAt events id := by
  rw [OrdMap.mem_entries_iff]
  have isEvents : ((byBlock events).get? id).getD [] = eventsAt events id := getD_byBlock id
  have listed : ((byBlock events).get? id).isSome ↔ ∃ ev ∈ events, ev.block = id := by
    unfold byBlock
    rw [OrdMap.get?_mapValues, OrdMap.get?_group]
    split_ifs with listed
    · simpa using listed
    · simpa using listed
  constructor
  · intro found
    rw [found] at isEvents
    exact ⟨listed.mp (by rw [found]; rfl), isEvents⟩
  · rintro ⟨some, rfl⟩
    obtain ⟨list, found⟩ := Option.isSome_iff_exists.mp (listed.mpr some)
    rw [found] at isEvents ⊢
    exact congrArg Option.some isEvents

theorem mem_events_of_still {earlier : List IrBlockId} {ev moved : MoveEvent}
    (still : StillMoved moved (along events earlier ++ before events ev)) : moved ∈ events := by
  obtain ⟨front, between, isSplit, -⟩ := still
  have isIn : moved ∈ along events earlier ++ before events ev := by
    rw [isSplit]
    exact List.mem_append_right _ List.mem_cons_self
  rcases List.mem_append.mp isIn with onPath | inBlock
  · obtain ⟨block, -, isAt⟩ := List.mem_flatMap.mp onPath
    exact (mem_eventsAt.mp isAt).1
  · exact (mem_eventsAt.mp (List.mem_filter.mp inBlock).1).1

theorem moveBefore_iff (distinct : (events.map (·.order)).Nodup) {state : State}
    (good : Good events state) {ev : MoveEvent}
    (holds : ∀ fact, Holds state fact ↔ Arrives cfg events ev.block (before events ev) fact) :
    (∀ moved, moveBefore events state ev = some moved → ev.kind ≠ .bind ∧
      Reaches cfg events moved ev ∧
        ∀ other, Reaches cfg events other ev → moved.order ≤ other.order) ∧
    (ev.kind ≠ .bind → (∃ moved, Reaches cfg events moved ev) →
      ∃ moved, moveBefore events state ev = some moved) := by
  have held : ∀ {moved}, Reaches cfg events moved ev → Holds state moved := by
    rintro moved ⟨-, earlier, walk, still⟩
    exact (holds moved).mpr ⟨earlier, walk, moved, still, rfl, le_rfl⟩
  constructor
  · intro moved isMove
    obtain ⟨isMoved, notBind, isSymbol, found⟩ := (good.moveBefore_eq_some distinct).mp isMove
    have least : ∀ other, Reaches cfg events other ev → moved.order ≤ other.order := by
      intro other reaches
      obtain ⟨value, witness, isValue, isWitness, early⟩ := held reaches
      rw [reaches.1, found] at isValue
      cases isValue
      cases isWitness
      exact early
    refine ⟨notBind, ?_, least⟩
    obtain ⟨earlier, walk, first, still, isFirst, early⟩ :=
      (holds moved).mp ⟨_, _, by rw [isSymbol]; exact found, rfl, le_rfl⟩
    have reaches : Reaches cfg events first ev := ⟨isFirst.trans isSymbol, earlier, walk, still⟩
    have same := eq_of_order distinct (mem_events_of_still still) isMoved
      (le_antisymm early (least first reaches))
    exact same ▸ reaches
  · rintro notBind ⟨moved, reaches⟩
    obtain ⟨value, witness, isValue, -⟩ := held reaches
    obtain ⟨first, isFirst, -, isSymbol, rfl⟩ := good _ value isValue
    rw [reaches.1] at isValue isSymbol
    exact ⟨first, (good.moveBefore_eq_some distinct).mpr ⟨isFirst, notBind, isSymbol, isValue⟩⟩

end Blocks

/-! ### The whole function -/

section Whole

variable {cfg : IrControlFlowGraph} {events : List MoveEvent}
  {solving : Library.Solving IrBlockId State}

def stateAt (solving : Library.Solving IrBlockId State) (id : IrBlockId) : State :=
  (solving.inState.get? id).getD OrdMap.empty

/-- What the fixpoint ends with. -/
structure Fixed (cfg : IrControlFlowGraph) (events : List MoveEvent)
    (distinct : (events.map (·.order)).Nodup) (solving : Library.Solving IrBlockId State) :
    Prop where
  reachable : ∀ id, id ∈ solving.reachable ↔
    Library.Graph.Reachable (Edge cfg) cfg.entryBlock id
  good : ∀ id ∈ solving.reachable, Good events (stateAt solving id)
  holds : ∀ id ∈ solving.reachable, ∀ fact,
    Holds (stateAt solving id) fact ↔ (moveflowLaws cfg distinct).Enters id fact

def reported (events : List MoveEvent) (solving : Library.Solving IrBlockId State) :
    List (MoveEvent × MoveEvent) :=
  (byBlock events).entries.flatMap fun entry =>
    if entry.1 ∈ solving.reachable then uses events entry.2 (stateAt solving entry.1) else []

theorem mem_reported {ev moved : MoveEvent} : (ev, moved) ∈ reported events solving ↔
    ev ∈ events ∧ ev.block ∈ solving.reachable ∧
      ∃ front back, eventsAt events ev.block = front ++ ev :: back ∧
        moveBefore events (front.foldl State.after (stateAt solving ev.block)) ev = some moved := by
  unfold reported
  rw [List.mem_flatMap]
  constructor
  · rintro ⟨⟨id, list⟩, isEntry, isUse⟩
    obtain ⟨-, rfl⟩ := mem_byBlock.mp isEntry
    split_ifs at isUse with reached
    · obtain ⟨front, back, split, isMove⟩ := (mem_uses _).mp isUse
      have isAt : ev ∈ eventsAt events id := by
        change eventsAt events id = _ at split
        rw [split]
        exact List.mem_append_right _ List.mem_cons_self
      obtain ⟨isEvent, rfl⟩ := mem_eventsAt.mp isAt
      exact ⟨isEvent, reached, front, back, split, isMove⟩
    · exact absurd isUse List.not_mem_nil
  · rintro ⟨isEvent, reached, front, back, split, isMove⟩
    refine ⟨(ev.block, eventsAt events ev.block), mem_byBlock.mpr ⟨⟨ev, isEvent, rfl⟩, rfl⟩, ?_⟩
    rw [if_pos reached]
    exact (mem_uses _).mpr ⟨front, back, split, isMove⟩

theorem Fixed.moveBefore_iff {distinct : (events.map (·.order)).Nodup}
    (fixed : Fixed cfg events distinct solving) {ev : MoveEvent}
    (reached : ev.block ∈ solving.reachable) {front back : List MoveEvent}
    (split : eventsAt events ev.block = front ++ ev :: back) :
    (∀ moved, moveBefore events (front.foldl State.after (stateAt solving ev.block)) ev =
      some moved → ev.kind ≠ .bind ∧ Reaches cfg events moved ev ∧
        ∀ other, Reaches cfg events other ev → moved.order ≤ other.order) ∧
    (ev.kind ≠ .bind → (∃ moved, Reaches cfg events moved ev) → ∃ moved,
      moveBefore events (front.foldl State.after (stateAt solving ev.block)) ev = some moved) := by
  have areEvents : ∀ other ∈ front, other ∈ events := by
    intro other isOther
    have isAt : other ∈ eventsAt events ev.block := split ▸ List.mem_append_left _ isOther
    exact (mem_eventsAt.mp isAt).1
  have good := fixed.good ev.block reached
  apply Moves.moveBefore_iff distinct (good.foldl_after areEvents)
  intro fact
  rw [good.holds_foldl_after fact areEvents, before_eq distinct split,
    arrives_iff distinct ((fixed.reachable _).mp reached), fixed.holds ev.block reached]

theorem Fixed.violations_eq {distinct : (events.map (·.order)).Nodup}
    (fixed : Fixed cfg events distinct solving) :
    ((byBlock events).entries.flatMap fun entry =>
      if entry.1 ∈ solving.reachable then (transfer entry.2 (stateAt solving entry.1)).2
      else []) = (reported events solving).map reportOf := by
  unfold reported
  rw [List.map_flatMap]
  apply List.flatMap_congr
  rintro ⟨id, list⟩ isEntry
  obtain ⟨-, rfl⟩ := mem_byBlock.mp isEntry
  split_ifs with reached
  · exact Good.transfer_snd distinct _ (fixed.good id reached)
      fun ev isAt => (mem_eventsAt.mp isAt).1
  · rfl

/-- Each use is reported once. -/
theorem reported_nodup (distinct : (events.map (·.order)).Nodup) :
    ((reported events solving).map Prod.fst).Nodup := by
  have within : ∀ entry ∈ (byBlock events).entries,
      ((if entry.1 ∈ solving.reachable then uses events entry.2 (stateAt solving entry.1)
        else []).map Prod.fst).Sublist (eventsAt events entry.1) := by
    rintro ⟨id, list⟩ isEntry
    obtain ⟨-, rfl⟩ := mem_byBlock.mp isEntry
    split_ifs
    · exact uses_sublist _
    · exact List.nil_sublist _
  unfold reported
  rw [List.map_flatMap, List.nodup_flatMap]
  constructor
  · intro entry isEntry
    apply List.Nodup.sublist (within entry isEntry)
    exact (eventsAt_sorted distinct entry.1).imp fun {first second} earlier same =>
      absurd (same ▸ earlier) (lt_irrefl _)
  · apply List.Pairwise.imp_of_mem ?_ (byBlock events).sorted
    intro first second isFirst isSecond less
    rw [Function.onFun, List.disjoint_left]
    intro ev inFirst inSecond
    have atFirst := (mem_eventsAt.mp ((within first isFirst).subset inFirst)).2
    have atSecond := (mem_eventsAt.mp ((within second isSecond).subset inSecond)).2
    exact less.ne (atFirst.symm.trans atSecond)

/-- A fixpoint reports exactly the uses that a move reaches. -/
theorem Fixed.reportsExactly {distinct : (events.map (·.order)).Nodup}
    (fixed : Fixed cfg events distinct solving) :
    ReportsExactly cfg events (((byBlock events).entries.flatMap fun entry =>
      if entry.1 ∈ solving.reachable then (transfer entry.2 (stateAt solving entry.1)).2
      else []).mergeSort Violation.upTo) := by
  refine ⟨reported events solving, ?_, reported_nodup distinct, fun ev => ⟨?_, ?_⟩, ?_⟩
  · rw [fixed.violations_eq]
    exact List.mergeSort_perm _ _
  · intro isReported
    obtain ⟨⟨_, moved⟩, inReported, rfl⟩ := List.mem_map.mp isReported
    obtain ⟨isEvent, reached, front, back, split, isMove⟩ := mem_reported.mp inReported
    obtain ⟨notBind, reaches, -⟩ := (fixed.moveBefore_iff reached split).1 moved isMove
    exact ⟨isEvent, notBind, moved, reaches⟩
  · rintro ⟨isEvent, notBind, moved, reaches⟩
    obtain ⟨earlier, walk, -⟩ := reaches.2
    have reached : ev.block ∈ solving.reachable := (fixed.reachable _).mpr ⟨_, walk⟩
    obtain ⟨front, back, split⟩ := exists_split isEvent
    obtain ⟨first, isMove⟩ := (fixed.moveBefore_iff reached split).2 notBind ⟨moved, reaches⟩
    exact List.mem_map.mpr
      ⟨(ev, first), mem_reported.mpr ⟨isEvent, reached, front, back, split, isMove⟩, rfl⟩
  · intro ev moved inReported
    obtain ⟨-, reached, front, back, split, isMove⟩ := mem_reported.mp inReported
    exact ((fixed.moveBefore_iff reached split).1 moved isMove).2

/-- The fixpoint ends, and the violations are exactly the reads and moves that some move reaches,
each reported with the earliest. -/
theorem solve_reportsExactly (cfg : IrControlFlowGraph) (events : List MoveEvent)
    (distinct : (events.map (·.order)).Nodup) : ∃ enough, ∀ fuel, enough ≤ fuel →
      ∃ violations, solve fuel cfg events = some violations ∧
        ReportsExactly cfg events violations := by
  obtain ⟨enough, ends⟩ := (moveflowLaws cfg distinct).solved cfg.blocks.keys
  refine ⟨enough, fun fuel isEnough => ?_⟩
  obtain ⟨solving, isFinal, isReachable, states⟩ := ends fuel isEnough
  rw [edge_eq] at isReachable
  have fixed : Fixed cfg events distinct solving := by
    refine ⟨isReachable, fun id reached => ?_, fun id reached fact => ?_⟩
    all_goals obtain ⟨state, found, good, holds⟩ := states id reached
    all_goals rw [stateAt, found, Option.getD_some]
    · exact good
    · exact holds fact
  exact ⟨_, by rw [solve, isFinal, Option.map_some]; rfl, fixed.reportsExactly⟩

/-- A loop around one block that moves a binding: the move reaches itself. -/
def loopingCfg : IrControlFlowGraph where
  blocks := OrdMap.ofList [(0, { terminator := .branch 0 })]
  entryBlock := 0
  nextBlockId := 1

def movedInLoop : MoveEvent := ⟨0, 0, 7, .move, ⟨0, 1, 1, 0⟩⟩

theorem solve_reportsExactly_loop : ∃ enough, ∀ fuel, enough ≤ fuel →
    ∃ violations, solve fuel loopingCfg [movedInLoop] = some violations ∧
      ReportsExactly loopingCfg [movedInLoop] violations :=
  solve_reportsExactly loopingCfg [movedInLoop] (by decide)

end Whole

end Rayzor.Moves
