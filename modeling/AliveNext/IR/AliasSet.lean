import AliveNext.Smt.Compare

/-!
# Alias sets

`Memory::AliasSet` of `ir/memory.cpp`: one bit for each local and each non-local
block. The question whether a symbolic block identifier is in the set becomes a
comparison with an upper bound when the set looks like a prefix.
-/

namespace AliveNext.IR

open Smt

structure AliasSet where
  locals : List Bool
  nonLocals : List Bool
  deriving DecidableEq

namespace AliasSet

def empty (numLocals numNonlocals : Nat) : AliasSet where
  locals := List.replicate numLocals false
  nonLocals := List.replicate numNonlocals false

def vector (self : AliasSet) (islocal : Bool) : List Bool :=
  if islocal then self.locals else self.nonLocals

def modify (self : AliasSet) (islocal : Bool) (f : List Bool → List Bool) : AliasSet :=
  if islocal then { self with locals := f self.locals }
  else { self with nonLocals := f self.nonLocals }

def size (self : AliasSet) (islocal : Bool) : Nat := (self.vector islocal).length

/-- How far the first loop of `isFullUpToAlias` gets. -/
def leading : List Bool → Nat
  | true :: rest => leading rest + 1
  | _ => 0

def isFullUpToAlias (self : AliasSet) (islocal : Bool) : Int :=
  let v := self.vector islocal
  let i := leading v
  if (List.range (v.length - i)).any fun _ => v.getD i false then -1 else (i : Int) - 1

def mayAlias (self : AliasSet) (islocal : Bool) (bid : Nat) : Bool :=
  (self.vector islocal).getD bid false

/-- `mayAlias` of a symbolic block identifier. -/
def mayAliasExpr (z : Z3) (self : AliasSet) (islocal : Bool) (bid : Expr) : Expr :=
  let upto := self.isFullUpToAlias islocal
  if 0 ≤ upto then Expr.uleUInt z bid upto.toNat
  else
    (List.range (self.size islocal)).foldl
      (fun ret i =>
        if self.mayAlias islocal i then
          Expr.or ret (Expr.cmpEq z bid (Expr.mkUInt i bid.bits))
        else ret)
      (.bool false)

def setMayAlias (self : AliasSet) (islocal : Bool) (bid : Nat) : AliasSet :=
  self.modify islocal fun v => v.set bid true

def setMayAliasUpTo (self : AliasSet) (islocal : Bool) (limit : Nat) : AliasSet :=
  (List.range (limit + 1)).foldl (fun ret i => ret.setMayAlias islocal i) self

def setNoAlias (self : AliasSet) (islocal : Bool) (bid : Nat) : AliasSet :=
  self.modify islocal fun v => v.set bid false

def combine (f : Bool → Bool → Bool) : List Bool → List Bool → List Bool
  | a :: as, b :: bs => f a b :: combine f as bs
  | as, _ => as

def intersectWith (self other : AliasSet) : AliasSet where
  locals := combine and self.locals other.locals
  nonLocals := combine and self.nonLocals other.nonLocals

def unionWith (self other : AliasSet) : AliasSet where
  locals := combine or self.locals other.locals
  nonLocals := combine or self.nonLocals other.nonLocals

/-- A vector of bits and the sets of blocks that it was built as. -/
inductive Built : AliasSet → (Bool → Set Nat) → Prop
  | empty (numLocals numNonlocals : Nat) : Built (empty numLocals numNonlocals) fun _ => ∅
  | setMayAlias {self : AliasSet} {sets : Bool → Set Nat} {islocal : Bool} {bid : Nat} :
      Built self sets → bid < self.size islocal →
      Built (self.setMayAlias islocal bid)
        (Function.update sets islocal (insert bid (sets islocal)))
  | setMayAliasUpTo {self : AliasSet} {sets : Bool → Set Nat} {islocal : Bool} {limit : Nat} :
      Built self sets → limit < self.size islocal →
      Built (self.setMayAliasUpTo islocal limit)
        (Function.update sets islocal (sets islocal ∪ Set.Iic limit))
  | setNoAlias {self : AliasSet} {sets : Bool → Set Nat} {islocal : Bool} {bid : Nat} :
      Built self sets → bid < self.size islocal →
      Built (self.setNoAlias islocal bid) (Function.update sets islocal (sets islocal \ {bid}))
  | intersectWith {self other : AliasSet} {sets sets' : Bool → Set Nat} :
      Built self sets → Built other sets' →
      Built (self.intersectWith other)
        fun islocal => sets islocal ∩ (sets' islocal ∪ Set.Ici (other.size islocal))
  | unionWith {self other : AliasSet} {sets sets' : Bool → Set Nat} :
      Built self sets → Built other sets' →
      Built (self.unionWith other)
        fun islocal => sets islocal ∪ (sets' islocal ∩ Set.Iio (self.size islocal))

section

variable {self other : AliasSet} {sets : Bool → Set Nat} {islocal side : Bool} {bid : Nat}

def members (self : AliasSet) (islocal : Bool) : Set Nat :=
  {bid | self.mayAlias islocal bid = true}

theorem vector_modify (f : List Bool → List Bool) : (self.modify islocal f).vector side =
      if side = islocal then f (self.vector side) else self.vector side := by
  cases side <;> cases islocal <;> rfl

variable {i : Nat} {b : Bool}

theorem getD_set {v : List Bool} (inside : bid < v.length) :
    (v.set bid b).getD i false = if bid = i then b else v.getD i false := by
  rw [List.getD_eq_getElem?_getD, List.getElem?_set, if_pos inside, List.getD_eq_getElem?_getD]
  split <;> rfl

theorem mayAlias_modify_set (inside : bid < self.size islocal) :
    (self.modify islocal fun v => v.set bid b).mayAlias side i =
      if side = islocal ∧ bid = i then b else self.mayAlias side i := by
  unfold mayAlias
  rw [vector_modify]
  by_cases same : side = islocal
  · subst same
    rw [if_pos rfl, getD_set inside]
    simp only [true_and]
  · rw [if_neg same, if_neg fun both => same both.1]

theorem size_modify_set (bid : Nat) (b : Bool) :
    (self.modify islocal fun v => v.set bid b).size side = self.size side := by
  unfold size
  rw [vector_modify]
  split
  · rw [List.length_set]
  · rfl

theorem members_setMayAlias (inside : bid < self.size islocal) :
    (self.setMayAlias islocal bid).members =
      Function.update self.members islocal (insert bid (self.members islocal)) := by
  funext side
  ext i
  rw [members, Set.mem_ofPred_eq, setMayAlias, mayAlias_modify_set inside]
  by_cases same : side = islocal
  · subst same
    rw [Function.update_self, Set.mem_insert_iff, eq_comm (a := i)]
    by_cases this_bid : bid = i
    · simp [this_bid]
    · simp [this_bid, members]
  · rw [Function.update_of_ne same, if_neg fun both => same both.1]
    rfl

theorem members_setNoAlias (inside : bid < self.size islocal) :
    (self.setNoAlias islocal bid).members =
      Function.update self.members islocal (self.members islocal \ {bid}) := by
  funext side
  ext i
  rw [members, Set.mem_ofPred_eq, setNoAlias, mayAlias_modify_set inside]
  by_cases same : side = islocal
  · subst same
    rw [Function.update_self, Set.mem_sdiff, Set.mem_singleton_iff, eq_comm (a := i)]
    by_cases this_bid : bid = i
    · simp [this_bid]
    · simp [this_bid, members]
  · rw [Function.update_of_ne same, if_neg fun both => same both.1]
    rfl

/-- The rounds of the loop of `setMayAliasUpTo`. -/
theorem members_fold {n : Nat} (inside : n ≤ self.size islocal) :
    ((List.range n).foldl (fun ret i => ret.setMayAlias islocal i) self).size = self.size ∧
      ((List.range n).foldl (fun ret i => ret.setMayAlias islocal i) self).members =
        Function.update self.members islocal (self.members islocal ∪ Set.Iio n) := by
  induction n with
  | zero =>
    refine ⟨rfl, ?_⟩
    rw [show Set.Iio 0 = (∅ : Set Nat) by ext; simp, Set.union_empty, Function.update_eq_self]
    rfl
  | succ n ih =>
    obtain ⟨sizes, before⟩ := ih (Nat.le_of_succ_le inside)
    rw [List.range_succ, List.foldl_concat]
    constructor
    · funext side
      rw [setMayAlias, size_modify_set, sizes]
    · rw [members_setMayAlias (by rw [sizes]; exact inside), before, Function.update_idem,
        Function.update_self]
      congr 1
      ext i
      simp only [Set.mem_insert_iff, Set.mem_union, Set.mem_Iio]
      constructor
      · rintro (rfl | member | less)
        · exact .inr (Nat.lt_succ_self i)
        · exact .inl member
        · exact .inr (Nat.lt_succ_of_lt less)
      · rintro (member | less)
        · exact .inr (.inl member)
        · rcases Nat.lt_succ_iff_lt_or_eq.1 less with below | same
          · exact .inr (.inr below)
          · exact .inl same

theorem members_setMayAliasUpTo {limit : Nat} (inside : limit < self.size islocal) :
    (self.setMayAliasUpTo islocal limit).members =
      Function.update self.members islocal (self.members islocal ∪ Set.Iic limit) := by
  rw [setMayAliasUpTo, (members_fold inside).2]
  congr 2
  ext i
  simp only [Set.mem_Iio, Set.mem_Iic, Nat.lt_succ_iff]

theorem getD_combine {f : Bool → Bool → Bool} {a b : List Bool} (short : i < a.length) :
    (combine f a b).getD i false =
      if i < b.length then f (a.getD i false) (b.getD i false) else a.getD i false := by
  induction a, b using combine.induct generalizing i with
  | case1 x xs y ys ih =>
    cases i with
    | zero => rfl
    | succ i =>
      rw [combine, List.getD_cons_succ, List.getD_cons_succ, List.getD_cons_succ,
        ih (Nat.lt_of_succ_lt_succ short)]
      simp only [List.length_cons, Nat.add_lt_add_iff_right]
  | case2 xs ys other =>
    cases xs with
    | nil => exact absurd short (Nat.not_lt_zero i)
    | cons x xs =>
      cases ys with
      | nil => rfl
      | cons y ys => exact (other x xs y ys rfl rfl).elim

theorem length_combine (f : Bool → Bool → Bool) (a b : List Bool) :
    (combine f a b).length = a.length := by
  induction a, b using combine.induct with
  | case1 x xs y ys ih => rw [combine, List.length_cons, ih, List.length_cons]
  | case2 xs ys other => rw [combine.eq_2 f xs ys other]

theorem mayAlias_lt (known : self.mayAlias islocal bid = true) : bid < self.size islocal := by
  by_contra outside
  rw [mayAlias, List.getD_eq_default _ _ (not_lt.1 outside)] at known
  cases known

theorem members_empty (numLocals numNonlocals : Nat) :
    (empty numLocals numNonlocals).members = fun _ => ∅ := by
  funext side
  ext i
  rw [members, Set.mem_ofPred_eq, Set.mem_empty_iff_false, iff_false, Bool.not_eq_true]
  have clear : ∀ n, (List.replicate n false).getD i false = false := by
    intro n
    rw [List.getD_eq_getElem?_getD, List.getElem?_replicate]
    split <;> rfl
  cases side <;> exact clear _

theorem mayAlias_intersectWith : (self.intersectWith other).mayAlias islocal bid =
      (self.mayAlias islocal bid &&
        (other.mayAlias islocal bid || decide (other.size islocal ≤ bid))) := by
  have vectors : (self.intersectWith other).vector islocal =
      combine and (self.vector islocal) (other.vector islocal) := by cases islocal <;> rfl
  rw [mayAlias, mayAlias, mayAlias, vectors]
  by_cases short : bid < (self.vector islocal).length
  · rw [getD_combine short]
    by_cases both : bid < (other.vector islocal).length
    · rw [if_pos both, size, decide_eq_false (not_le.2 both), Bool.or_false]
    · rw [if_neg both, size, decide_eq_true (not_lt.1 both), Bool.or_true, Bool.and_true]
  · rw [List.getD_eq_default _ _ (by rw [length_combine]; exact not_lt.1 short),
      List.getD_eq_default _ _ (not_lt.1 short), Bool.false_and]

theorem mayAlias_unionWith : (self.unionWith other).mayAlias islocal bid =
      (self.mayAlias islocal bid ||
        (other.mayAlias islocal bid && decide (bid < self.size islocal))) := by
  have vectors : (self.unionWith other).vector islocal =
      combine or (self.vector islocal) (other.vector islocal) := by cases islocal <;> rfl
  rw [mayAlias, mayAlias, mayAlias, vectors, size]
  by_cases short : bid < (self.vector islocal).length
  · rw [getD_combine short, decide_eq_true short, Bool.and_true]
    by_cases both : bid < (other.vector islocal).length
    · rw [if_pos both]
    · rw [if_neg both, List.getD_eq_default (other.vector islocal) _ (not_lt.1 both), Bool.or_false]
  · rw [List.getD_eq_default _ _ (by rw [length_combine]; exact not_lt.1 short),
      List.getD_eq_default (self.vector islocal) _ (not_lt.1 short), decide_eq_false short,
      Bool.and_false, Bool.or_false]

theorem Built.members_eq (built : Built self sets) : self.members = sets := by
  induction built with
  | empty numLocals numNonlocals => exact members_empty numLocals numNonlocals
  | setMayAlias _ inside ih => rw [members_setMayAlias inside, ih]
  | setMayAliasUpTo _ inside ih => rw [members_setMayAliasUpTo inside, ih]
  | setNoAlias _ inside ih => rw [members_setNoAlias inside, ih]
  | intersectWith _ _ first second =>
    rw [← first, ← second]
    funext side
    ext i
    simp [members, mayAlias_intersectWith]
  | unionWith _ _ first second =>
    rw [← first, ← second]
    funext side
    ext i
    simp [members, mayAlias_unionWith]

end

section

variable {self : AliasSet} {sets : Bool → Set Nat} {islocal : Bool} {bid : Expr} {w : Nat}

theorem leading_stops (v : List Bool) : v.getD (leading v) false = false := by
  induction v using leading.induct with
  | case1 rest ih => exact ih
  | case2 v other =>
    rw [leading]
    · cases v with
      | nil => rfl
      | cons b rest =>
        cases b with
        | false => rfl
        | true => exact (other rest rfl).elim
    · exact other

theorem leading_set {v : List Bool} {i : Nat} (below : i < leading v) : v.getD i false = true := by
  induction v using leading.induct generalizing i with
  | case1 rest ih =>
    cases i with
    | zero => rfl
    | succ i => exact ih (Nat.lt_of_succ_lt_succ below)
  | case2 v other =>
    rw [leading] at below
    · exact absurd below (Nat.not_lt_zero i)
    · exact other

theorem isFullUpToAlias_eq (self : AliasSet) (islocal : Bool) :
    self.isFullUpToAlias islocal = (leading (self.vector islocal) : Int) - 1 := by
  unfold isFullUpToAlias
  dsimp only
  rw [leading_stops, if_neg]
  simp

theorem leading_eq_iff {n : Nat} : leading (self.vector islocal) = n ↔
      (∀ i < n, i ∈ self.members islocal) ∧ n ∉ self.members islocal := by
  constructor
  · rintro rfl
    refine ⟨fun i below => leading_set below, ?_⟩
    rw [members, Set.mem_ofPred_eq, mayAlias, leading_stops]
    exact Bool.false_ne_true
  · rintro ⟨before, gap⟩
    rcases Nat.lt_trichotomy (leading (self.vector islocal)) n with less | same | greater
    · have present : self.mayAlias islocal (leading (self.vector islocal)) = true :=
        before _ less
      rw [mayAlias, leading_stops] at present
      cases present
    · exact same
    · exact absurd (leading_set greater) gap

theorem mayAlias_fold_decides (z : Z3) (sorted : bid.HasSort (.bv w)) (n : Nat) (fits : n ≤ 2 ^ w) :
    ((List.range n).foldl
      (fun ret i =>
        if self.mayAlias islocal i then
          Expr.or ret (Expr.cmpEq z bid (Expr.mkUInt i bid.bits))
        else ret)
      (.bool false)).Decides [bid]
      fun M => bid.toNat M < n ∧ bid.toNat M ∈ self.members islocal := by
  induction n with
  | zero => exact .const fun M _ => by simp
  | succ n ih =>
    rw [List.range_succ, List.foldl_concat, sorted.bits_eq]
    have before := ih (Nat.le_of_succ_le fits)
    rw [sorted.bits_eq] at before
    have equal := Expr.cmpEq_const_decides z (.refl sorted) n
    split
    · next present =>
      refine (before.or equal).congr fun M _ => ?_
      rw [Nat.mod_eq_of_lt fits]
      constructor
      · rintro (⟨below, member⟩ | same)
        · exact ⟨Nat.lt_succ_of_lt below, member⟩
        · rw [same]
          exact ⟨Nat.lt_succ_self n, present⟩
      · rintro ⟨below, member⟩
        rcases Nat.lt_succ_iff_lt_or_eq.1 below with less | same
        · exact .inl ⟨less, member⟩
        · exact .inr same
    · next absent =>
      refine before.congr fun M _ => ?_
      constructor
      · rintro ⟨below, member⟩
        exact ⟨Nat.lt_succ_of_lt below, member⟩
      · rintro ⟨below, member⟩
        rcases Nat.lt_succ_iff_lt_or_eq.1 below with less | same
        · exact ⟨less, member⟩
        · rw [same] at member
          exact absurd member absent

theorem mayAliasExpr_decides
    (z : Z3) (sorted : bid.HasSort (.bv w)) (fits : self.size islocal ≤ 2 ^ w) :
    (self.mayAliasExpr z islocal bid).Decides [bid] fun M =>
      if 0 < leading (self.vector islocal) then bid.toNat M < leading (self.vector islocal)
      else bid.toNat M ∈ self.members islocal := by
  unfold mayAliasExpr
  rw [isFullUpToAlias_eq]
  dsimp only
  by_cases some_lead : 0 < leading (self.vector islocal)
  · rw [if_pos (by omega), Expr.uleUInt, sorted.bits_eq]
    have last : leading (self.vector islocal) - 1 < self.size islocal :=
      mayAlias_lt (leading_set (by omega))
    have number : (Expr.mkUInt ((leading (self.vector islocal) : Int) - 1).toNat w).HasSort
        (.bv w) := Expr.hasSort_mkUInt sorted.pos
    have decides := Expr.ule_decides z sorted number
    refine ⟨decides.sorted, fun M safe => ?_, fun M safe => ?_⟩
    · exact decides.safe M (Expr.safe_pair.2 ⟨Expr.safe_single.1 safe, trivial⟩)
    · rw [decides.truth M (Expr.safe_pair.2 ⟨Expr.safe_single.1 safe, trivial⟩),
        Expr.toNat_mkUInt, Nat.mod_eq_of_lt (by omega), if_pos some_lead]
      omega
  · rw [if_neg (by omega)]
    refine (mayAlias_fold_decides z sorted (self.size islocal) fits).congr fun M _ => ?_
    rw [if_neg some_lead]
    exact ⟨fun both => both.2, fun member => ⟨mayAlias_lt member, member⟩⟩

theorem prefix_iff {n : Nat} : self.members islocal = Set.Iic n ↔
      leading (self.vector islocal) = n + 1 ∧
        ∀ i ∈ self.members islocal, i < leading (self.vector islocal) := by
  constructor
  · intro same
    have lead : leading (self.vector islocal) = n + 1 := by
      rw [leading_eq_iff, same]
      exact ⟨fun i below => Nat.le_of_lt_succ below, Nat.not_succ_le_self n⟩
    rw [lead, same]
    exact ⟨rfl, fun i member => Nat.lt_succ_of_le member⟩
  · rintro ⟨lead, bound⟩
    ext i
    constructor
    · intro member
      have below := bound i member
      rw [lead] at below
      exact Nat.le_of_lt_succ below
    · intro member
      exact leading_set (by rw [lead]; exact Nat.lt_succ_of_le member)

/-- Each of the two functions is right about a set exactly when the set does not begin
with block 0 or has no gap. -/
theorem membership_exact_iff
    (z : Z3) {self : AliasSet} {sets : Bool → Set Nat} (built : Built self sets) (islocal : Bool) :
    ((∀ (w : Nat) (bid : Expr) (M : Model), bid.HasSort (.bv w) → self.size islocal ≤ 2 ^ w →
        bid.NonzeroDivisors M →
          ((self.mayAliasExpr z islocal bid).truth M = true ↔ bid.toNat M ∈ sets islocal)) ↔
      (0 ∉ sets islocal ∨ ∃ n, sets islocal = Set.Iic n)) ∧
    ((∀ n : Nat, self.isFullUpToAlias islocal = n ↔ sets islocal = Set.Iic n) ↔
      (0 ∉ sets islocal ∨ ∃ n, sets islocal = Set.Iic n)) := by
  rw [← built.members_eq]
  refine ⟨⟨fun exact_ => ?_, ?_⟩, ⟨fun full => ?_, ?_⟩⟩
  · by_cases lead : 0 < leading (self.vector islocal)
    · refine .inr ⟨leading (self.vector islocal) - 1, prefix_iff.2 ⟨by omega, ?_⟩⟩
      intro i member
      -- a block identifier that is the number of the member
      have small : i < 2 ^ self.size islocal := (mayAlias_lt member).trans Nat.lt_two_pow_self
      have sorted : (Expr.mkUInt i (self.size islocal)).HasSort (.bv (self.size islocal)) :=
        Expr.hasSort_mkUInt (Nat.zero_lt_of_lt (mayAlias_lt member))
      have decides := mayAliasExpr_decides z sorted Nat.lt_two_pow_self.le
      have value : Expr.toNat (Expr.mkUInt i (self.size islocal)) default = i := by
        rw [Expr.toNat_mkUInt, Nat.mod_eq_of_lt small]
      have holds := exact_ _ _ default sorted Nat.lt_two_pow_self.le trivial
      rw [decides.truth default (Expr.safe_single.2 trivial), value, if_pos lead] at holds
      exact holds.2 member
    · exact .inl (leading_eq_iff.1 (Nat.eq_zero_of_not_pos lead)).2
  · intro condition w bid M sorted fits safe
    rw [(mayAliasExpr_decides z sorted fits).truth M (Expr.safe_single.2 safe)]
    rcases condition with absent | ⟨n, same⟩
    · have none_leads : leading (self.vector islocal) = 0 :=
        leading_eq_iff.2 ⟨fun i below => absurd below (Nat.not_lt_zero i), absent⟩
      rw [none_leads, if_neg (lt_irrefl 0)]
    · rw [(prefix_iff.1 same).1, if_pos (Nat.succ_pos n), same]
      exact Nat.lt_succ_iff
  · by_cases lead : 0 < leading (self.vector islocal)
    · refine .inr ⟨leading (self.vector islocal) - 1, (full _).1 ?_⟩
      rw [isFullUpToAlias_eq]
      omega
    · exact .inl (leading_eq_iff.1 (Nat.eq_zero_of_not_pos lead)).2
  · intro condition n
    rw [isFullUpToAlias_eq, prefix_iff]
    constructor
    · intro full
      refine ⟨by omega, ?_⟩
      rcases condition with absent | ⟨m, same⟩
      · exact absurd (leading_set (by omega)) absent
      · exact (prefix_iff.1 same).2
    · rintro ⟨lead, -⟩
      omega

theorem membership_exact_iff_upTo :
    ((empty 3 0).setMayAliasUpTo true 1).isFullUpToAlias true = (1 : Nat) ↔
      Function.update (fun _ : Bool => (∅ : Set Nat)) true (∅ ∪ Set.Iic 1) true = Set.Iic 1 :=
  (membership_exact_iff Z3.reference (.setMayAliasUpTo (.empty 3 0) (by decide)) true).2.2
    (.inr ⟨1, by rw [Function.update_self, Set.empty_union]⟩) 1

noncomputable def pointsToLast : Model :=
  { (default : Model) with var := fun _ s =>
      match s with
      | .bv w => BitVec.ofNat w 2
      | s => s.default }

/-- Blocks 0 and 2 of three pass for block 0 alone. -/
theorem mayAlias_of_gap :
    ¬∀ (z : Z3) (self : AliasSet) (sets : Bool → Set Nat), Built self sets →
      ∀ (islocal : Bool) (w : Nat) (bid : Expr) (M : Model), bid.HasSort (.bv w) →
        self.size islocal ≤ 2 ^ w → bid.NonzeroDivisors M →
          ((self.mayAliasExpr z islocal bid).truth M = true ↔ bid.toNat M ∈ sets islocal) := by
  intro claim
  obtain ⟨sets, built⟩ : ∃ sets, Built (((empty 3 0).setMayAlias true 0).setMayAlias true 2) sets :=
    ⟨_, .setMayAlias (.setMayAlias (.empty 3 0) (by decide)) (by decide)⟩
  have sorted : (Expr.var "bid" (.bv 2)).HasSort (.bv 2) := ⟨rfl, rfl⟩
  have decided := (mayAliasExpr_decides Z3.reference sorted (show
    (((empty 3 0).setMayAlias true 0).setMayAlias true 2).size true ≤ 2 ^ 2 by decide)).truth
      pointsToLast (Expr.safe_single.2 trivial)
  have value : (Expr.var "bid" (.bv 2)).toNat pointsToLast = 2 := by decide
  have lead : leading ((((empty 3 0).setMayAlias true 0).setMayAlias true 2).vector true) = 1 := by
    decide
  have exact_ := claim Z3.reference _ sets built true 2 _ pointsToLast sorted (by decide) trivial
  rw [decided, lead, if_pos Nat.one_pos, value, ← built.members_eq] at exact_
  have member : 2 ∈ (((empty 3 0).setMayAlias true 0).setMayAlias true 2).members true := by
    rw [members, Set.mem_ofPred_eq]
    decide
  exact absurd (exact_.2 member) (by decide)

end

end AliasSet

end AliveNext.IR
