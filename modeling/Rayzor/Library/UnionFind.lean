import Rayzor.Library.OrdMap

/-!
Contract: disjoint sets by a forest with ranks and path compression.
-/

namespace Rayzor.Library

universe u

variable {τ : Type u} [LinearOrder τ]

structure UnionFind (τ : Type u) [LinearOrder τ] where
  parent : OrdMap τ τ
  rank : OrdMap τ Nat

namespace UnionFind

def empty : UnionFind τ := ⟨OrdMap.empty, OrdMap.empty⟩

/-- The root above an element, with a bound on the steps to it. An element that is new becomes its
own root. -/
def findWithin : Nat → UnionFind τ → τ → Option (UnionFind τ × τ)
  | 0, _, _ => none
  | fuel + 1, sets, x =>
      match sets.parent.get? x with
      | some parent =>
          if parent = x then some (sets, x)
          else (findWithin fuel sets parent).map fun found =>
            ({ found.1 with parent := found.1.parent.insert x found.2 }, found.2)
      | none => some (⟨sets.parent.insert x x, sets.rank.insert x 0⟩, x)

def find (sets : UnionFind τ) (x : τ) : Option (UnionFind τ × τ) :=
  findWithin (sets.parent.keys.length + 1) sets x

def link (sets : UnionFind τ) (rootX rootY : τ) : Option (UnionFind τ) :=
  (sets.rank.get? rootX).bind fun rankX => (sets.rank.get? rootY).map fun rankY =>
    if rankX < rankY then { sets with parent := sets.parent.insert rootX rootY }
    else if rankY < rankX then { sets with parent := sets.parent.insert rootY rootX }
    else ⟨sets.parent.insert rootY rootX, sets.rank.insert rootX (rankX + 1)⟩

def union (sets : UnionFind τ) (x y : τ) : Option (UnionFind τ) :=
  (sets.find x).bind fun foundX => (foundX.1.find y).bind fun foundY =>
    if foundX.2 = foundY.2 then some foundY.1 else foundY.1.link foundX.2 foundY.2

def representatives (sets : UnionFind τ) : Option (UnionFind τ × OrdMap τ τ) :=
  sets.parent.keys.foldlM (fun state key =>
    (state.1.find key).map fun found => (found.1, state.2.insert key found.2)) (sets, OrdMap.empty)

def rankOf (sets : UnionFind τ) (x : τ) : Nat := (sets.rank.get? x).getD 0

/-- A forest in which every element has a root, and ranks grow towards it. -/
structure Represents (sets : UnionFind τ) (root : τ → τ) : Prop where
  parent : ∀ {x parent}, sets.parent.get? x = some parent → root parent = root x ∧
    (parent = x → root x = x) ∧ (parent ≠ x → sets.rankOf x < sets.rankOf parent)
  isRoot : ∀ {x parent}, sets.parent.get? x = some parent →
    sets.parent.get? (root x) = some (root x)
  ranked : ∀ {x parent}, sets.parent.get? x = some parent → ∃ rank, sets.rank.get? x = some rank
  below : ∀ {x}, root x ≠ x → sets.rankOf x < sets.rankOf (root x)
  new : ∀ {x}, sets.parent.get? x = none → root x = x

variable {sets : UnionFind τ} {root : τ → τ}

theorem represents_empty : Represents (empty : UnionFind τ) id where
  parent found := by cases found
  isRoot found := by cases found
  ranked found := by cases found
  below different := absurd rfl different
  new _ := rfl

theorem Represents.root_root (represents : Represents sets root) (x : τ) :
    root (root x) = root x := by
  cases found : sets.parent.get? x with
  | none =>
      rw [represents.new found]
      exact represents.new found
  | some parent => exact (represents.parent (represents.isRoot found)).2.1 rfl

theorem Represents.rank_le (represents : Represents sets root) (x : τ) :
    sets.rankOf x ≤ sets.rankOf (root x) := by
  by_cases same : root x = x
  · rw [same]
  · exact (represents.below same).le

theorem Represents.insertNew (represents : Represents sets root) {x : τ}
    (isNew : sets.parent.get? x = none) :
    Represents ⟨sets.parent.insert x x, sets.rank.insert x 0⟩ root := by
  have isSelf := represents.new isNew
  have apart : ∀ {y parent}, sets.parent.get? y = some parent → y ≠ x := by
    rintro y parent found rfl
    rw [isNew] at found
    cases found
  have noChild : ∀ {y}, y ≠ x → root y ≠ x := by
    intro y different isX
    cases found : sets.parent.get? y with
    | none => exact different ((represents.new found).symm.trans isX)
    | some parent => exact apart (represents.isRoot found) isX
  have rankOf_eq : ∀ {y}, y ≠ x →
      UnionFind.rankOf ⟨sets.parent.insert x x, sets.rank.insert x 0⟩ y = sets.rankOf y := by
    intro y different
    simp only [rankOf, OrdMap.get?_insert_of_ne _ _ different]
  refine ⟨?_, ?_, ?_, ?_, ?_⟩
  · intro y parent found
    simp only [OrdMap.get?_insert] at found
    split_ifs at found with same
    · cases found
      subst same
      exact ⟨rfl, fun _ => isSelf, fun different => absurd rfl different⟩
    · obtain ⟨upwards, self, less⟩ := represents.parent found
      refine ⟨upwards, self, fun different => ?_⟩
      have parentApart : parent ≠ x := by
        rintro rfl
        rw [isSelf] at upwards
        exact noChild same upwards.symm
      rw [rankOf_eq same, rankOf_eq parentApart]
      exact less different
  · intro y parent found
    simp only [OrdMap.get?_insert] at found ⊢
    split_ifs at found with same
    · rw [same, isSelf, if_pos rfl]
    · rw [if_neg (noChild same)]
      exact represents.isRoot found
  · intro y parent found
    simp only [OrdMap.get?_insert] at found ⊢
    split_ifs at found ⊢
    · exact ⟨0, rfl⟩
    · exact represents.ranked found
  · intro y different
    have other : y ≠ x := by
      rintro rfl
      exact different isSelf
    rw [rankOf_eq other, rankOf_eq (noChild other)]
    exact represents.below different
  · intro y isNew'
    simp only [OrdMap.get?_insert] at isNew'
    split_ifs at isNew'
    exact represents.new isNew'

theorem Represents.compress (represents : Represents sets root) {x parent : τ}
    (found : sets.parent.get? x = some parent) (different : root x ≠ x) :
    Represents { sets with parent := sets.parent.insert x (root x) } root := by
  have isRoot := represents.isRoot found
  refine ⟨?_, ?_, ?_, represents.below, ?_⟩
  · intro y above foundY
    simp only [OrdMap.get?_insert] at foundY
    split_ifs at foundY with same
    · cases foundY
      subst same
      exact ⟨represents.root_root y, fun isSelf => isSelf, fun _ => represents.below different⟩
    · exact represents.parent foundY
  · intro y above foundY
    simp only [OrdMap.get?_insert] at foundY ⊢
    have isRootY : sets.parent.get? (root y) = some (root y) := by
      split_ifs at foundY with same
      · exact same ▸ isRoot
      · exact represents.isRoot foundY
    split_ifs with same
    · have isSelf := (represents.parent isRootY).2.1 rfl
      rw [same] at isSelf
      exact absurd isSelf different
    · exact isRootY
  · intro y above foundY
    simp only [OrdMap.get?_insert] at foundY
    split_ifs at foundY with same
    · exact represents.ranked (same ▸ found)
    · exact represents.ranked foundY
  · intro y isNew
    simp only [OrdMap.get?_insert] at isNew
    split_ifs at isNew
    exact represents.new isNew

def Known (sets : UnionFind τ) (x : τ) : Prop := ∃ parent, sets.parent.get? x = some parent

theorem Represents.known_root (represents : Represents sets root) {x : τ} (known : sets.Known x) :
    sets.Known (root x) := by
  obtain ⟨parent, found⟩ := known
  exact ⟨_, represents.isRoot found⟩

/-- The elements that rank above another. -/
def higher (sets : UnionFind τ) (x : τ) : List τ :=
  sets.parent.keys.filter fun key => sets.rankOf x < sets.rankOf key

theorem higher_lt {x parent : τ} (less : sets.rankOf x < sets.rankOf parent)
    (known : sets.Known parent) : (sets.higher parent).length < (sets.higher x).length := by
  have isKey : parent ∈ sets.parent.keys := (sets.parent.mem_keys_iff parent).mpr known
  have within : (parent :: sets.higher parent).Subperm (sets.higher x) := by
    apply List.Nodup.subperm
    · refine List.nodup_cons.mpr ⟨?_, sets.parent.keys_nodup.filter _⟩
      simp [higher]
    · intro key isHigher
      unfold higher at isHigher ⊢
      rw [List.mem_filter, decide_eq_true_eq]
      rcases List.mem_cons.mp isHigher with rfl | isHigher
      · exact ⟨isKey, less⟩
      · rw [List.mem_filter, decide_eq_true_eq] at isHigher
        exact ⟨isHigher.1, less.trans isHigher.2⟩
  exact within.length_le

/-- What a search leaves: the same roots, and the element it was for is known. -/
structure Found (sets : UnionFind τ) (root : τ → τ) (x : τ) (sets' : UnionFind τ) : Prop where
  represents : Represents sets' root
  known : ∀ y, sets'.Known y ↔ sets.Known y ∨ y = x

theorem Represents.findWithin (represents : Represents sets root) :
    ∀ (fuel : Nat) (x : τ), (sets.higher x).length < fuel →
      ∃ sets', findWithin fuel sets x = some (sets', root x) ∧ Found sets root x sets' := by
  intro fuel
  induction fuel with
  | zero => exact fun x short => absurd short (Nat.not_lt_zero _)
  | succ fuel ih =>
      intro x short
      cases found : sets.parent.get? x with
      | none =>
          refine ⟨⟨sets.parent.insert x x, sets.rank.insert x 0⟩, ?_,
            represents.insertNew found, fun y => ?_⟩
          · simp only [UnionFind.findWithin, found]
            rw [represents.new found]
          · unfold Known
            simp only [OrdMap.get?_insert]
            by_cases same : y = x <;> simp [same]
      | some parent =>
          obtain ⟨upwards, isSelf, less⟩ := represents.parent found
          by_cases same : parent = x
          · refine ⟨sets, ?_, represents, fun y => (or_iff_left_of_imp ?_).symm⟩
            · simp only [UnionFind.findWithin, found]
              rw [if_pos same, isSelf same]
            · rintro rfl
              exact ⟨parent, found⟩
          · have knownParent : sets.Known parent := by
              by_contra isNew
              have none : sets.parent.get? parent = none :=
                Option.eq_none_iff_forall_ne_some.mpr fun above isAbove => isNew ⟨above, isAbove⟩
              have isRoot := represents.isRoot found
              rw [← upwards, represents.new none, none] at isRoot
              cases isRoot
            have fewer := higher_lt (less same) knownParent
            obtain ⟨sets', isFound, search⟩ := ih parent (by omega)
            have known : sets'.Known x := (search.known x).mpr (Or.inl ⟨parent, found⟩)
            obtain ⟨above, isAbove⟩ := known
            have different : root x ≠ x := by
              intro isRoot
              have higherRank := represents.rank_le parent
              rw [upwards, isRoot] at higherRank
              exact absurd (less same) (not_lt.mpr higherRank)
            refine ⟨{ sets' with parent := sets'.parent.insert x (root x) }, ?_,
              search.represents.compress isAbove different, fun y => ?_⟩
            · simp only [UnionFind.findWithin, found]
              rw [if_neg same, isFound, Option.map_some, upwards]
            · have knownY : UnionFind.Known
                  { sets' with parent := sets'.parent.insert x (root x) } y ↔
                    sets'.Known y ∨ y = x := by
                unfold Known
                simp only [OrdMap.get?_insert]
                by_cases isX : y = x <;> simp [isX]
              rw [knownY, search.known]
              constructor
              · rintro ((before | rfl) | isX)
                · exact Or.inl before
                · exact Or.inl knownParent
                · exact Or.inr isX
              · rintro (before | isX)
                · exact Or.inl (Or.inl before)
                · exact Or.inr isX

theorem Represents.find (represents : Represents sets root) (x : τ) :
    ∃ sets', sets.find x = some (sets', root x) ∧ Found sets root x sets' :=
  represents.findWithin _ x (Nat.lt_succ_of_le (List.length_filter_le _ _))

/-- The roots when one of them goes under another. -/
def attached (root : τ → τ) (loser winner : τ) (x : τ) : τ :=
  if root x = loser then winner else root x

theorem Represents.attach (represents : Represents sets root) {loser winner : τ}
    (different : loser ≠ winner) (rootLoser : root loser = loser) (rootWinner : root winner = winner)
    (knownLoser : sets.Known loser) (knownWinner : sets.Known winner) {rank : OrdMap τ Nat}
    (kept : ∀ x, x ≠ winner → rank.get? x = sets.rank.get? x) {bound : Nat}
    (isBound : rank.get? winner = some bound) (least : sets.rankOf winner ≤ bound)
    (less : sets.rankOf loser < bound) :
    Represents ⟨sets.parent.insert loser winner, rank⟩ (attached root loser winner) := by
  have rankOf_eq : ∀ {x}, x ≠ winner →
      UnionFind.rankOf ⟨sets.parent.insert loser winner, rank⟩ x = sets.rankOf x := by
    intro x other
    simp only [rankOf, kept x other]
  have rankOf_winner :
      UnionFind.rankOf ⟨sets.parent.insert loser winner, rank⟩ winner = bound := by
    simp only [rankOf, isBound, Option.getD_some]
  have rankOf_le : ∀ x, sets.rankOf x ≤
      UnionFind.rankOf ⟨sets.parent.insert loser winner, rank⟩ x := by
    intro x
    by_cases same : x = winner
    · rw [same, rankOf_winner]
      exact least
    · rw [rankOf_eq same]
  have attachedWinner : attached root loser winner winner = winner := by
    unfold attached
    rw [rootWinner, if_neg different.symm]
  refine ⟨?_, ?_, ?_, ?_, ?_⟩
  · intro x parent found
    simp only [OrdMap.get?_insert] at found
    split_ifs at found with same
    · cases found
      subst same
      refine ⟨?_, fun isSelf => absurd isSelf.symm different, fun _ => ?_⟩
      · rw [attachedWinner, attached, if_pos rootLoser]
      · rw [rankOf_eq different, rankOf_winner]
        exact less
    · obtain ⟨upwards, isSelf, lessRank⟩ := represents.parent found
      refine ⟨?_, fun self => ?_, fun other => ?_⟩
      · unfold attached
        rw [upwards]
      · have rootX := isSelf self
        unfold attached
        rw [rootX, if_neg same]
      · have notWinner : x ≠ winner := by
          rintro rfl
          have higherRank := represents.rank_le parent
          rw [upwards, rootWinner] at higherRank
          exact absurd (lessRank other) (not_lt.mpr higherRank)
        rw [rankOf_eq notWinner]
        exact (lessRank other).trans_le (rankOf_le parent)
  · intro x parent found
    simp only [OrdMap.get?_insert] at found ⊢
    have isWinner : sets.parent.get? winner = some winner := by
      obtain ⟨above, isAbove⟩ := knownWinner
      have isRoot := represents.isRoot isAbove
      rwa [rootWinner] at isRoot
    by_cases isLoser : root x = loser
    · rw [attached, if_pos isLoser, if_neg different.symm]
      exact isWinner
    · rw [attached, if_neg isLoser, if_neg isLoser]
      split_ifs at found with same
      · exact absurd (same ▸ rootLoser) isLoser
      · exact represents.isRoot found
  · intro x parent found
    by_cases same : x = winner
    · exact ⟨bound, same ▸ isBound⟩
    · rw [kept x same]
      simp only [OrdMap.get?_insert] at found
      split_ifs at found with isLoser
      · obtain ⟨above, isAbove⟩ := knownLoser
        exact represents.ranked (isLoser ▸ isAbove)
      · exact represents.ranked found
  · intro x other
    have notWinner : x ≠ winner := by
      rintro rfl
      exact other attachedWinner
    rw [rankOf_eq notWinner]
    unfold attached at other ⊢
    split_ifs at other ⊢ with isLoser
    · rw [rankOf_winner]
      have upTo := represents.rank_le x
      rw [isLoser] at upTo
      exact upTo.trans_lt less
    · exact (represents.below other).trans_le (rankOf_le _)
  · intro x isNew
    simp only [OrdMap.get?_insert] at isNew
    split_ifs at isNew with same
    have isSelf := represents.new isNew
    unfold attached
    rw [isSelf, if_neg same]

/-- The roots of two sets become one of the two. -/
structure Joined (sets : UnionFind τ) (root : τ → τ) (rootX rootY : τ) (sets' : UnionFind τ)
    (root' : τ → τ) : Prop where
  represents : Represents sets' root'
  known : ∀ z, sets'.Known z ↔ sets.Known z
  same : ∀ a b, root' a = root' b ↔ root a = root b ∨
    (root a = rootX ∨ root a = rootY) ∧ (root b = rootX ∨ root b = rootY)

theorem attached_same (loser winner a b : τ) :
    attached root loser winner a = attached root loser winner b ↔ root a = root b ∨
      (root a = loser ∨ root a = winner) ∧ (root b = loser ∨ root b = winner) := by
  unfold attached
  by_cases loserA : root a = loser
  · by_cases loserB : root b = loser
    · simp [loserA, loserB]
    · have apart : loser ≠ root b := fun same => loserB same.symm
      simp [loserA, loserB, apart, eq_comm]
  · by_cases loserB : root b = loser
    · simp [loserA, loserB]
    · simp only [loserA, loserB, if_false, false_or]
      constructor
      · exact Or.inl
      · rintro (same | ⟨winnerA, winnerB⟩)
        · exact same
        · exact winnerA.trans winnerB.symm

theorem known_insert {x parent : τ} (known : sets.Known x) (rank : OrdMap τ Nat) (z : τ) :
    UnionFind.Known ⟨sets.parent.insert x parent, rank⟩ z ↔ sets.Known z := by
  unfold Known
  simp only [OrdMap.get?_insert]
  by_cases same : z = x
  · obtain ⟨above, isAbove⟩ := known
    simp [same, isAbove]
  · simp [same]

theorem Represents.link (represents : Represents sets root) {rootX rootY : τ}
    (different : rootX ≠ rootY) (isRootX : root rootX = rootX) (isRootY : root rootY = rootY)
    (knownX : sets.Known rootX) (knownY : sets.Known rootY) :
    ∃ sets' root', sets.link rootX rootY = some sets' ∧
      Joined sets root rootX rootY sets' root' := by
  obtain ⟨rankX, isRankX⟩ : ∃ rank, sets.rank.get? rootX = some rank := by
    obtain ⟨parent, found⟩ := knownX
    exact represents.ranked found
  obtain ⟨rankY, isRankY⟩ : ∃ rank, sets.rank.get? rootY = some rank := by
    obtain ⟨parent, found⟩ := knownY
    exact represents.ranked found
  have rankOfX : sets.rankOf rootX = rankX := by
    rw [rankOf, isRankX, Option.getD_some]
  have rankOfY : sets.rankOf rootY = rankY := by
    rw [rankOf, isRankY, Option.getD_some]
  unfold UnionFind.link
  rw [isRankX, isRankY, Option.bind_some, Option.map_some]
  rcases lt_trichotomy rankX rankY with less | rfl | more
  · rw [if_pos less]
    exact ⟨_, _, rfl, represents.attach different isRootX isRootY knownX knownY (fun _ _ => rfl)
      isRankY rankOfY.le (rankOfX ▸ less), known_insert knownX _, attached_same rootX rootY⟩
  · rw [if_neg (lt_irrefl _), if_neg (lt_irrefl _)]
    refine ⟨_, _, rfl, represents.attach different.symm isRootY isRootX knownY knownX
      (fun x other => OrdMap.get?_insert_of_ne _ _ other) (OrdMap.get?_insert_self _ _ _)
      (rankOfX ▸ Nat.le_succ _) (rankOfY ▸ Nat.lt_succ_self _), known_insert knownY _,
      fun a b => ?_⟩
    rw [attached_same rootY rootX, or_comm (a := root a = rootY), or_comm (a := root b = rootY)]
  · rw [if_neg more.not_gt, if_pos more]
    refine ⟨_, _, rfl, represents.attach different.symm isRootY isRootX knownY knownX
      (fun _ _ => rfl) isRankX rankOfX.le (rankOfY ▸ more), known_insert knownY _, fun a b => ?_⟩
    rw [attached_same rootY rootX, or_comm (a := root a = rootY), or_comm (a := root b = rootY)]

theorem Represents.union (represents : Represents sets root) (x y : τ) :
    ∃ sets' root', sets.union x y = some sets' ∧ Represents sets' root' ∧
      (∀ z, sets'.Known z ↔ sets.Known z ∨ z = x ∨ z = y) ∧
      ∀ a b, root' a = root' b ↔ root a = root b ∨
        (root a = root x ∨ root a = root y) ∧ (root b = root x ∨ root b = root y) := by
  obtain ⟨setsX, isX, foundX⟩ := represents.find x
  obtain ⟨setsY, isY, foundY⟩ := foundX.represents.find y
  have known : ∀ z, setsY.Known z ↔ sets.Known z ∨ z = x ∨ z = y := by
    intro z
    rw [foundY.known, foundX.known, or_assoc]
  unfold UnionFind.union
  rw [isX, Option.bind_some, isY, Option.bind_some]
  by_cases same : root x = root y
  · refine ⟨setsY, root, if_pos same, foundY.represents, known, fun a b => ?_⟩
    rw [← same, or_self, or_self]
    exact (or_iff_left_of_imp fun both => both.1.trans both.2.symm).symm
  · obtain ⟨sets', root', linked, joined⟩ := foundY.represents.link same
      (represents.root_root x) (represents.root_root y)
      (foundY.represents.known_root ((known x).mpr (Or.inr (Or.inl rfl))))
      (foundY.represents.known_root ((known y).mpr (Or.inr (Or.inr rfl))))
    rw [if_neg same]
    exact ⟨sets', root', linked, joined.represents, fun z => (joined.known z).trans (known z),
      joined.same⟩

def Connected (pairs : List (τ × τ)) : τ → τ → Prop :=
  Relation.EqvGen fun a b => (a, b) ∈ pairs

omit [LinearOrder τ] in
theorem connected_concat (pairs : List (τ × τ)) (x y a b : τ) :
    Connected (pairs ++ [(x, y)]) a b ↔ Connected pairs a b ∨
      (Connected pairs a x ∨ Connected pairs a y) ∧
        (Connected pairs b x ∨ Connected pairs b y) := by
  have grow : ∀ {c d}, Connected pairs c d → Connected (pairs ++ [(x, y)]) c d :=
    fun connected => connected.mono fun _ _ member => List.mem_append_left _ member
  have link : Connected (pairs ++ [(x, y)]) x y :=
    .rel _ _ (List.mem_append_right _ (List.mem_singleton_self _))
  constructor
  · intro connected
    induction connected with
    | rel c d member =>
        rcases List.mem_append.mp member with before | isNew
        · exact Or.inl (.rel _ _ before)
        · cases List.mem_singleton.mp isNew
          exact Or.inr ⟨Or.inl (.refl _), Or.inr (.refl _)⟩
    | refl c => exact Or.inl (.refl c)
    | symm c d _ ih =>
        exact ih.imp (fun connected => connected.symm) And.symm
    | trans c d e _ _ first second =>
        rcases first with first | ⟨firstC, firstD⟩
        · rcases second with second | ⟨secondD, secondE⟩
          · exact Or.inl (first.trans _ _ _ second)
          · exact Or.inr ⟨secondD.imp (first.trans _ _ _) (first.trans _ _ _), secondE⟩
        · rcases second with second | ⟨-, secondE⟩
          · exact Or.inr ⟨firstC,
              firstD.imp ((second.symm).trans _ _ _) ((second.symm).trans _ _ _)⟩
          · exact Or.inr ⟨firstC, secondE⟩
  · rintro (connected | ⟨fromA, fromB⟩)
    · exact grow connected
    · have toX : ∀ {c}, Connected pairs c x ∨ Connected pairs c y →
          Connected (pairs ++ [(x, y)]) c x := by
        rintro c (connected | connected)
        · exact grow connected
        · exact (grow connected).trans _ _ _ link.symm
      exact (toX fromA).trans _ _ _ (toX fromB).symm

/-- The roots are shared exactly by the elements that the pairs connect. -/
structure Classes (sets : UnionFind τ) (pairs : List (τ × τ)) (root : τ → τ) : Prop where
  represents : Represents sets root
  known : ∀ z, sets.Known z ↔ ∃ pair ∈ pairs, z = pair.1 ∨ z = pair.2
  same : ∀ a b, root a = root b ↔ Connected pairs a b

theorem classes_empty : Classes (empty : UnionFind τ) [] id where
  represents := represents_empty
  known z := by
    constructor
    · rintro ⟨parent, found⟩
      cases found
    · rintro ⟨pair, isPair, -⟩
      cases isPair
  same a b := by
    constructor
    · rintro rfl
      exact .refl a
    · intro connected
      induction connected with
      | rel _ _ member => cases member
      | refl _ => rfl
      | symm _ _ _ ih => exact ih.symm
      | trans _ _ _ _ _ first second => exact first.trans second

/-- The step lemma: a union adds its pair. -/
theorem Classes.union {pairs : List (τ × τ)} (classes : Classes sets pairs root) (x y : τ) :
    ∃ sets' root', sets.union x y = some sets' ∧ Classes sets' (pairs ++ [(x, y)]) root' := by
  obtain ⟨sets', root', isUnion, represents, known, same⟩ := classes.represents.union x y
  refine ⟨sets', root', isUnion, represents, fun z => ?_, fun a b => ?_⟩
  · rw [known, classes.known]
    simp only [List.mem_append, List.mem_singleton, or_and_right, exists_or, exists_eq_left]
  · rw [same, connected_concat]
    simp only [classes.same]

/-- Unions one after the other. -/
def unions (sets : UnionFind τ) (pairs : List (τ × τ)) : Option (UnionFind τ) :=
  pairs.foldlM (fun (sets : UnionFind τ) pair => sets.union pair.1 pair.2) sets

/-- The run lemma: any unions add their pairs. -/
theorem Classes.unions (more : List (τ × τ)) : ∀ {pairs : List (τ × τ)} {sets : UnionFind τ}
    {root : τ → τ}, Classes sets pairs root →
      ∃ sets' root', sets.unions more = some sets' ∧ Classes sets' (pairs ++ more) root' := by
  induction more with
  | nil =>
      intro pairs sets root classes
      exact ⟨sets, root, rfl, (List.append_nil pairs).symm ▸ classes⟩
  | cons pair more ih =>
      intro pairs sets root classes
      obtain ⟨first, firstRoot, isUnion, classes'⟩ := classes.union pair.1 pair.2
      obtain ⟨sets', root', folded, classes''⟩ := ih classes'
      refine ⟨sets', root', ?_, ?_⟩
      · rw [UnionFind.unions, List.foldlM_cons, isUnion]
        exact folded
      · rwa [List.append_assoc, List.singleton_append] at classes''

theorem Represents.representatives (represents : Represents sets root) :
    ∃ sets' map, sets.representatives = some (sets', map) ∧ Represents sets' root ∧
      ∀ x, (map.get? x).getD x = root x := by
  have along : ∀ (keys : List τ) (sets : UnionFind τ) (map : OrdMap τ τ), Represents sets root →
      ∃ sets' map', keys.foldlM (fun (state : UnionFind τ × OrdMap τ τ) key =>
          (state.1.find key).map fun found => (found.1, state.2.insert key found.2)) (sets, map) =
            some (sets', map') ∧ Represents sets' root ∧
        ∀ x, map'.get? x = if x ∈ keys then some (root x) else map.get? x := by
    intro keys
    induction keys with
    | nil =>
        intro sets map represents
        exact ⟨sets, map, rfl, represents, fun x => (if_neg List.not_mem_nil).symm⟩
    | cons key keys ih =>
        intro sets map represents
        obtain ⟨found, isFound, search⟩ := represents.find key
        obtain ⟨sets', map', folded, represents', maps⟩ :=
          ih found (map.insert key (root key)) search.represents
        refine ⟨sets', map', ?_, represents', fun x => ?_⟩
        · rw [List.foldlM_cons, isFound]
          exact folded
        · rw [maps, OrdMap.get?_insert]
          by_cases same : x = key
          · simp [same]
          · simp [same]
  obtain ⟨sets', map, folded, represents', maps⟩ :=
    along sets.parent.keys sets OrdMap.empty represents
  refine ⟨sets', map, folded, represents', fun x => ?_⟩
  rw [maps]
  split_ifs with isKey
  · rfl
  · have isNew : sets.parent.get? x = none := by
      apply Option.eq_none_iff_forall_ne_some.mpr
      exact fun parent isParent => isKey ((sets.parent.mem_keys_iff x).mpr ⟨parent, isParent⟩)
    exact (represents.new isNew).symm

end UnionFind

end Rayzor.Library
