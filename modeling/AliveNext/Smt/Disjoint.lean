import AliveNext.Smt.Conjuncts

/-!
# Values by domain

`DisjointExpr` and `ChoiceExpr` map values to the domains in which they are
meant. In a model the values are picked whose domain is true: one of them, when
the domains are disjoint and cover all cases.
-/

namespace AliveNext.Smt

/-- What values are in a model, under a `mkIf` that has the value of the branch its
condition chooses. -/
structure Meaning {T : Type} (mkIf : Expr → T → T → T) (V : Type) where
  value : T → Model → V
  Sorted : T → Prop
  sorted_mkIf : ∀ {cond a b}, cond.HasSort .bool → Sorted a → Sorted b → Sorted (mkIf cond a b)
  value_mkIf : ∀ {cond a b} M, cond.HasSort .bool → Sorted a → Sorted b →
    value (mkIf cond a b) M = if cond.truth M then value a M else value b M

/-- `mkIf` with the result so far as the other branch, if there is one. -/
def joined {T : Type} (mkIf : Expr → T → T → T) (cond : Expr) (val : T) : Option T → T
  | some other => mkIf cond val other
  | none => val

namespace Meaning

variable {T V : Type} {mkIf : Expr → T → T → T} (meaning : Meaning mkIf V) {cond : Expr}
  {val other : T} {ret : Option T} {M : Model}

variable (condition : cond.HasSort .bool) (sorted : meaning.Sorted val)

include condition sorted

theorem sorted_joined (before : ∀ r, ret = some r → meaning.Sorted r) :
    meaning.Sorted (joined mkIf cond val ret) := by
  cases ret with
  | none => exact sorted
  | some other => exact meaning.sorted_mkIf condition sorted (before other rfl)

theorem value_joined (before : ∀ r, ret = some r → meaning.Sorted r) (holds : cond.truth M = true) :
    meaning.value (joined mkIf cond val ret) M = meaning.value val M := by
  cases ret with
  | none => rfl
  | some other =>
    rw [joined, meaning.value_mkIf M condition sorted (before other rfl), if_pos holds]

theorem value_joined_other (before : meaning.Sorted other) (fails : ¬cond.truth M = true) :
    meaning.value (joined mkIf cond val (some other)) M = meaning.value other M := by
  rw [joined, meaning.value_mkIf M condition sorted before, if_neg fails]

end Meaning

/-- `std::map<T, expr>`: the domains of distinct values, by the order of the
values. -/
structure DomainMap (T : Type) where
  entries : List (T × Expr) := []
  nodup : (entries.map Prod.fst).Nodup := by simp

def DomainMap.empty {T : Type} : DomainMap T := {}

@[simp] theorem DomainMap.entries_empty {T : Type} :
    (DomainMap.empty : DomainMap T).entries = [] := rfl

noncomputable def picked {T : Type} (M : Model) (entries : List (T × Expr)) : List T :=
  (entries.filter fun entry => entry.2.truth M).map Prod.fst

def Conditions {T : Type} (entries : List (T × Expr)) : Prop :=
  ∀ entry ∈ entries, entry.2.HasSort .bool

section

variable {T : Type} {M : Model} {entries more : List (T × Expr)} {entry : T × Expr} {v : T}

@[simp] theorem picked_nil : picked M ([] : List (T × Expr)) = [] := rfl

theorem picked_cons : picked M (entry :: entries) =
      if entry.2.truth M then entry.1 :: picked M entries else picked M entries := by
  unfold picked
  rw [List.filter_cons]
  split <;> rfl

@[simp] theorem picked_append : picked M (entries ++ more) = picked M entries ++ picked M more := by
  unfold picked
  rw [List.filter_append, List.map_append]

theorem picked_perm (same : entries.Perm more) : (picked M entries).Perm (picked M more) :=
  (same.filter _).map _

theorem mem_picked : v ∈ picked M entries ↔ ∃ d, (v, d) ∈ entries ∧ d.truth M = true := by
  unfold picked
  rw [List.mem_map]
  constructor
  · rintro ⟨⟨value, d⟩, member, rfl⟩
    rw [List.mem_filter] at member
    exact ⟨d, member⟩
  · rintro ⟨d, member⟩
    exact ⟨(v, d), List.mem_filter.2 member, rfl⟩

theorem picked_eq_nil : picked M entries = [] ↔ ∀ entry ∈ entries, entry.2.truth M = false := by
  unfold picked
  simp

theorem picked_map_and {U : Type} {c : Expr} (f : T → U) (sorted : c.HasSort .bool)
    (conditions : ∀ entry ∈ entries, entry.2.HasSort .bool) :
    picked M (entries.map fun entry => (f entry.1, Expr.and c entry.2)) =
      if c.truth M then (picked M entries).map f else [] := by
  induction entries with
  | nil => simp
  | cons entry rest ih =>
    rw [List.forall_mem_cons] at conditions
    rw [List.map_cons, picked_cons, picked_cons, ih conditions.2]
    dsimp only
    rw [Expr.truth_and_eq sorted conditions.1]
    cases c.truth M <;> cases entry.2.truth M <;> rfl

theorem picked_flatMap {U : Type} {f : T × Expr → List (U × Expr)}
    (closed : ∀ entry ∈ entries, entry.2.truth M = false → picked M (f entry) = [])
    (single : picked M entries = [v]) :
    ∃ d, (v, d) ∈ entries ∧ d.truth M = true ∧
      picked M (entries.flatMap f) = picked M (f (v, d)) := by
  have nothing : ∀ rest : List (T × Expr),
      (∀ entry ∈ rest, entry.2.truth M = false → picked M (f entry) = []) →
      picked M rest = [] → picked M (rest.flatMap f) = [] := by
    intro rest closed none_picked
    rw [picked_eq_nil] at none_picked ⊢
    intro piece member
    obtain ⟨entry, inside, given⟩ := List.mem_flatMap.1 member
    exact picked_eq_nil.1 (closed entry inside (none_picked entry inside)) piece given
  induction entries with
  | nil => cases single
  | cons entry rest ih =>
    rw [List.forall_mem_cons] at closed
    rw [picked_cons] at single
    rw [List.flatMap_cons, picked_append]
    by_cases holds : entry.2.truth M = true
    · rw [if_pos holds, List.cons.injEq] at single
      refine ⟨entry.2, ?_, holds, ?_⟩
      · rw [← single.1]
        exact List.mem_cons_self
      · rw [nothing rest closed.2 single.2, List.append_nil, ← single.1]
    · rw [if_neg holds] at single
      obtain ⟨d, member, truth, result⟩ := ih closed.2 single
      refine ⟨d, List.mem_cons_of_mem entry member, truth, ?_⟩
      rw [closed.1 (Bool.not_eq_true _ ▸ holds), List.nil_append, result]

theorem conditions_cons :
    Conditions (entry :: entries) ↔ entry.2.HasSort .bool ∧ Conditions entries :=
  List.forall_mem_cons

theorem conditions_append : Conditions (entries ++ more) ↔ Conditions entries ∧ Conditions more :=
  List.forall_mem_append

theorem conditions_perm (same : entries.Perm more) : Conditions entries ↔ Conditions more :=
  forall_congr' fun _ => by rw [same.mem_iff]

end

namespace DomainMap

variable {T : Type} [DecidableEq T] {M : Model} {less : T → T → Bool} {val v : T}
  {condition : Expr} {self : DomainMap T}

/-- `try_emplace`, or the domain joins the one that the value has. -/
def record (less : T → T → Bool) (self : DomainMap T) (val : T) (condition : Expr) : DomainMap T :=
  if present : val ∈ self.entries.map Prod.fst then
    { entries := self.entries.map fun entry =>
        (entry.1, if entry.1 = val then Expr.or entry.2 condition else entry.2)
      nodup := by simpa [List.map_map, Function.comp_def] using self.nodup }
  else
    { entries := self.entries.orderedInsert (fun a b => less a.1 b.1 = true) (val, condition)
      nodup := by
        have perm := (List.perm_orderedInsert (fun a b => less a.1 b.1 = true) (val, condition)
          self.entries).map Prod.fst
        exact perm.nodup_iff.2 (List.nodup_cons.2 ⟨present, self.nodup⟩) }

theorem record_present (present : val ∈ self.entries.map Prod.fst) :
    (self.record less val condition).entries = self.entries.map fun entry =>
      (entry.1, if entry.1 = val then Expr.or entry.2 condition else entry.2) := by
  rw [record, dif_pos present]

theorem record_absent (absent : val ∉ self.entries.map Prod.fst) :
    (self.record less val condition).entries.Perm ((val, condition) :: self.entries) := by
  rw [record, dif_neg absent]
  exact List.perm_orderedInsert _ _ _

theorem mem_record : v ∈ (self.record less val condition).entries.map Prod.fst ↔
      v = val ∨ v ∈ self.entries.map Prod.fst := by
  by_cases present : val ∈ self.entries.map Prod.fst
  · rw [record_present present, List.map_map]
    constructor
    · exact .inr
    · rintro (rfl | member)
      · exact present
      · exact member
  · rw [((record_absent present).map Prod.fst).mem_iff, List.map_cons, List.mem_cons]

section

variable (conditions : Conditions self.entries) (sorted : condition.HasSort .bool)

include conditions sorted

theorem conditions_record : Conditions (self.record less val condition).entries := by
  by_cases present : val ∈ self.entries.map Prod.fst
  · rw [record_present present]
    intro entry member
    obtain ⟨old, inside, rfl⟩ := List.mem_map.1 member
    dsimp only
    split
    · exact Expr.hasSort_or_eq (conditions old inside) sorted
    · exact conditions old inside
  · rw [conditions_perm (record_absent present), conditions_cons]
    exact ⟨sorted, conditions⟩

theorem mem_picked_record : v ∈ picked M (self.record less val condition).entries ↔
      v ∈ picked M self.entries ∨ v = val ∧ condition.truth M = true := by
  by_cases present : val ∈ self.entries.map Prod.fst
  · rw [record_present present, mem_picked, mem_picked]
    constructor
    · rintro ⟨d', member, holds⟩
      obtain ⟨⟨value, old⟩, inside, same⟩ := List.mem_map.1 member
      cases same
      dsimp only at holds
      by_cases same : value = val
      · rw [if_pos same, Expr.truth_or_eq (conditions _ inside) sorted, Bool.or_eq_true] at holds
        exact holds.imp (fun holds => ⟨old, inside, holds⟩) fun holds => ⟨same, holds⟩
      · rw [if_neg same] at holds
        exact .inl ⟨old, inside, holds⟩
    · rintro (⟨old, inside, holds⟩ | ⟨rfl, holds⟩)
      · refine ⟨_, List.mem_map.2 ⟨_, inside, rfl⟩, ?_⟩
        dsimp only
        split
        · rw [Expr.truth_or_eq (conditions _ inside) sorted, holds, Bool.true_or]
        · exact holds
      · obtain ⟨⟨value, old⟩, known, rfl⟩ := List.mem_map.1 present
        refine ⟨_, List.mem_map.2 ⟨_, known, rfl⟩, ?_⟩
        dsimp only
        rw [if_pos rfl, Expr.truth_or_eq (conditions _ known) sorted, holds, Bool.or_true]
  · rw [(picked_perm (record_absent present)).mem_iff, picked_cons]
    by_cases holds : condition.truth M = true
    · rw [if_pos holds, List.mem_cons]
      exact or_comm.trans (or_congr_right (by simp [holds]))
    · rw [if_neg holds]
      simp [holds]

theorem picked_record (single : (picked M ((val, condition) :: self.entries)).length ≤ 1) :
    picked M (self.record less val condition).entries =
      picked M ((val, condition) :: self.entries) := by
  have distinct : (picked M (self.record less val condition).entries).Nodup :=
    (self.record less val condition).nodup.sublist (List.filter_sublist.map Prod.fst)
  have members : ∀ v, v ∈ picked M (self.record less val condition).entries ↔
      v ∈ picked M ((val, condition) :: self.entries) := by
    intro v
    rw [mem_picked_record conditions sorted, picked_cons]
    by_cases holds : condition.truth M = true
    · rw [if_pos holds, List.mem_cons]
      exact or_comm.trans (or_congr_left (by simp [holds]))
    · rw [if_neg holds]
      simp [holds]
  have once : (picked M ((val, condition) :: self.entries)).Nodup := by
    match shape : picked M ((val, condition) :: self.entries), single with
    | [], _ => exact List.nodup_nil
    | [v], _ => exact List.nodup_singleton v
  have perm := (List.perm_ext_iff_of_nodup distinct once).2 members
  match shape : picked M ((val, condition) :: self.entries), single with
  | [], _ => rw [shape] at perm; exact perm.eq_nil
  | [v], _ => rw [shape] at perm; exact perm.eq_singleton

end

/-! The disjunction of the domains. -/

def domain (z : Z3) (self : DomainMap T) : Expr :=
  (self.entries.foldl (fun ret entry => ret.add z entry.2) ({} : OrExpr)).toExpr

omit [DecidableEq T] in
theorem domain_spec (z : Z3) (conditions : Conditions self.entries) :
    (self.domain z).HasSort .bool ∧
      ∀ M, (self.domain z).truth M = true ↔ picked M self.entries ≠ [] := by
  have sorts : ∀ action ∈ self.entries.map fun entry => OrExpr.Action.add entry.2,
      ∀ e ∈ action.added, e.HasSort .bool := by
    intro action member e given
    obtain ⟨entry, inside, rfl⟩ := List.mem_map.1 member
    rw [List.mem_singleton.1 given]
    exact conditions entry inside
  have shape : self.domain z =
      (OrExpr.runAll z (self.entries.map fun entry => .add entry.2)).toExpr := by
    rw [domain, OrExpr.runAll, List.foldl_map]
    rfl
  have spec := OrExpr.toExpr_runAll (z := z) sorts
  rw [shape]
  refine ⟨spec.1, fun M => ?_⟩
  rw [spec.2 M, ne_eq, picked_eq_nil]
  simp [OrExpr.Action.added]

end DomainMap

/-! ## `DisjointExpr` -/

structure DisjointExpr (T : Type) where
  vals : DomainMap T := DomainMap.empty
  defaultVal : Option T := none

namespace DisjointExpr

variable {T V : Type} {M : Model} {less : T → T → Bool} {val v : T} {condition : Expr}
  {self : DisjointExpr T}

def add [DecidableEq T] (less : T → T → Bool) (self : DisjointExpr T) (val : T) (domain : Expr) :
    DisjointExpr T :=
  if domain.isFalse then self
  else { self with vals := (if domain.isTrue then {} else self.vals).record less val domain }

/-- `add` for each pair. -/
def addEach [DecidableEq T] (less : T → T → Bool) (self : DisjointExpr T)
    (pieces : List (T × Expr)) : DisjointExpr T :=
  pieces.foldl (fun self piece => self.add less piece.1 piece.2) self

def lookup (self : DisjointExpr T) (domain : Expr) : Option T :=
  (self.vals.entries.find? fun entry => entry.2 = domain).map Prod.fst

def size (self : DisjointExpr T) : Nat := self.vals.entries.length

/-- The loop of `mk` and of `operator()`: the result for the entries so far. -/
def choose (mkIf : Expr → T → T → T) : (ret : Option T) → List (T × Expr) → Option T
  | ret, [] => ret
  | ret, (val, domain) :: rest =>
    if domain.isTrue then some val
    else choose mkIf (some (joined mkIf domain val ret)) rest

/-- `mk`. -/
def mkOr (mkIf : Expr → T → T → T) (self : DisjointExpr T) (ret : Option T) : Option T :=
  (choose mkIf ret self.vals.entries).or self.defaultVal

/-- `operator()`. -/
def toValue (mkIf : Expr → T → T → T) (self : DisjointExpr T) : Option T :=
  mkOr mkIf self none

def domain (z : Z3) (self : DisjointExpr T) : Expr := self.vals.domain z

section

variable [DecidableEq T]

theorem conditions_add (conditions : Conditions self.vals.entries)
    (sorted : condition.HasSort .bool) : Conditions (self.add less val condition).vals.entries := by
  unfold add
  split
  · exact conditions
  · apply DomainMap.conditions_record _ sorted
    split
    · exact List.forall_mem_nil _
    · exact conditions

theorem picked_add (conditions : Conditions self.vals.entries) (sorted : condition.HasSort .bool)
    (single : (picked M ((val, condition) :: self.vals.entries)).length ≤ 1) :
    picked M (self.add less val condition).vals.entries =
      picked M ((val, condition) :: self.vals.entries) := by
  unfold add
  by_cases fails : condition.isFalse = true
  · rw [if_pos fails, picked_cons, Expr.truth_of_isFalse fails]
    rfl
  rw [if_neg fails]
  by_cases holds : condition.isTrue = true
  · have truth := Expr.truth_of_isTrue holds M
    rw [picked_cons, if_pos truth, List.length_cons] at single
    have rest : picked M self.vals.entries = [] := List.eq_nil_of_length_eq_zero (by omega)
    dsimp only
    rw [if_pos holds, DomainMap.picked_record _ sorted, picked_cons, picked_cons, rest]
    · rfl
    · rw [picked_cons, if_pos truth]
      rfl
    · exact List.forall_mem_nil _
  · dsimp only
    rw [if_neg holds]
    exact DomainMap.picked_record conditions sorted single

theorem mem_add (member : v ∈ (self.add less val condition).vals.entries.map Prod.fst) :
    v = val ∨ v ∈ self.vals.entries.map Prod.fst := by
  unfold add at member
  split at member
  · exact .inr member
  · rcases DomainMap.mem_record.1 member with same | old
    · exact .inl same
    · split at old
      · exact absurd old List.not_mem_nil
      · exact .inr old

/-! What a sequence of additions leaves. -/

variable {pieces : List (T × Expr)}

theorem conditions_addEach (conditions : Conditions self.vals.entries)
    (sorted : Conditions pieces) : Conditions (self.addEach less pieces).vals.entries := by
  induction pieces generalizing self with
  | nil => exact conditions
  | cons piece rest ih =>
    rw [conditions_cons] at sorted
    exact ih (conditions_add conditions sorted.1) sorted.2

theorem mem_addEach (member : v ∈ (self.addEach less pieces).vals.entries.map Prod.fst) :
    v ∈ pieces.map Prod.fst ∨ v ∈ self.vals.entries.map Prod.fst := by
  induction pieces generalizing self with
  | nil => exact .inr member
  | cons piece rest ih =>
    rw [List.map_cons, List.mem_cons]
    rcases ih member with inside | before
    · exact .inl (.inr inside)
    · exact (mem_add before).imp .inl id

theorem defaultVal_addEach : (self.addEach less pieces).defaultVal = self.defaultVal := by
  induction pieces generalizing self with
  | nil => rfl
  | cons piece rest ih =>
    rw [addEach, List.foldl_cons]
    refine ih.trans ?_
    unfold add
    split <;> rfl

theorem addEach_eq_nil : (self.addEach less pieces).vals.entries = [] ↔
      self.vals.entries = [] ∧ ∀ piece ∈ pieces, piece.2.isFalse = true := by
  induction pieces generalizing self with
  | nil => exact ⟨fun empty => ⟨empty, nofun⟩, And.left⟩
  | cons piece rest ih =>
    rw [addEach, List.foldl_cons]
    refine ih.trans ?_
    rw [List.forall_mem_cons, ← and_assoc]
    refine and_congr_left fun _ => ?_
    unfold add
    by_cases fails : piece.2.isFalse = true
    · rw [if_pos fails]
      exact ⟨fun empty => ⟨empty, fails⟩, And.left⟩
    · rw [if_neg fails]
      refine iff_of_false (fun empty => ?_) fun both => fails both.2
      have member : piece.1 ∈ ((if piece.2.isTrue then {} else self.vals : DomainMap T).record less
          piece.1 piece.2).entries.map Prod.fst := DomainMap.mem_record.2 (.inl rfl)
      rw [empty] at member
      cases member

theorem picked_addEach (conditions : Conditions self.vals.entries)
    (sorted : Conditions pieces) (single : (picked M (pieces ++ self.vals.entries)).length ≤ 1) :
    picked M (self.addEach less pieces).vals.entries = picked M (pieces ++ self.vals.entries) := by
  induction pieces generalizing self with
  | nil => rfl
  | cons piece rest ih =>
    rw [conditions_cons] at sorted
    have moved : (piece :: rest ++ self.vals.entries).Perm
        (rest ++ piece :: self.vals.entries) := List.perm_middle.symm
    have bound : (picked M rest).length + (picked M (piece :: self.vals.entries)).length ≤ 1 := by
      rw [(picked_perm moved).length_eq, picked_append, List.length_append] at single
      exact single
    have added : picked M (self.add less piece.1 piece.2).vals.entries =
        picked M (piece :: self.vals.entries) :=
      picked_add conditions sorted.1 ((Nat.le_add_left _ _).trans bound)
    rw [addEach, List.foldl_cons]
    have next := ih (conditions_add conditions sorted.1) sorted.2
      (by rw [picked_append, added, List.length_append]; exact bound)
    refine next.trans ?_
    rw [picked_append, added, List.cons_append, picked_cons, picked_cons, picked_append]
    by_cases holds : piece.2.truth M = true
    · rw [picked_cons, if_pos holds, List.length_cons] at bound
      have none_left : picked M rest = [] := List.eq_nil_of_length_eq_zero (by omega)
      rw [none_left, List.nil_append, List.nil_append]
    · rw [if_neg holds, if_neg holds]

end

section

variable {mkIf : Expr → T → T → T} {meaning : Meaning mkIf V} {entries : List (T × Expr)} {ret : T}

section

variable (conditions : Conditions entries) (sorts : ∀ v ∈ entries.map Prod.fst, meaning.Sorted v)

include conditions sorts

theorem choose_of_none (sorted : meaning.Sorted ret) (unpicked : picked M entries = []) :
    ∃ t, choose mkIf (some ret) entries = some t ∧ meaning.Sorted t ∧
      meaning.value t M = meaning.value ret M := by
  induction entries generalizing ret with
  | nil => exact ⟨ret, rfl, sorted, rfl⟩
  | cons entry rest ih =>
    rw [conditions_cons] at conditions
    rw [List.map_cons, List.forall_mem_cons] at sorts
    rw [picked_cons] at unpicked
    split at unpicked
    · cases unpicked
    · next fails =>
      have before : ∀ r, some ret = some r → meaning.Sorted r := by
        rintro r ⟨⟩
        exact sorted
      obtain ⟨t, known, sorted', value⟩ := ih conditions.2 sorts.2
        (meaning.sorted_joined conditions.1 sorts.1 before) unpicked
      refine ⟨t, ?_, sorted', ?_⟩
      · rw [choose, if_neg fun known => fails (Expr.truth_of_isTrue known M)]
        exact known
      · rw [value, meaning.value_joined_other conditions.1 sorts.1 sorted fails]

theorem choose_of_picked {before : Option T}
    (sorted : ∀ ret, before = some ret → meaning.Sorted ret) (single : picked M entries = [v]) :
    ∃ t, choose mkIf before entries = some t ∧ meaning.Sorted t ∧
      meaning.value t M = meaning.value v M := by
  induction entries generalizing before with
  | nil => cases single
  | cons entry rest ih =>
    rw [conditions_cons] at conditions
    rw [List.map_cons, List.forall_mem_cons] at sorts
    rw [picked_cons] at single
    have next := meaning.sorted_joined conditions.1 sorts.1 sorted
    rw [choose]
    split at single
    · next holds =>
      injection single with same none_left
      subst same
      split
      · exact ⟨_, rfl, sorts.1, rfl⟩
      · obtain ⟨t, known, sorted', value⟩ := choose_of_none conditions.2 sorts.2 next none_left
        exact ⟨t, known, sorted', by
          rw [value, meaning.value_joined conditions.1 sorts.1 sorted holds]⟩
    · next fails =>
      rw [if_neg fun known => fails (Expr.truth_of_isTrue known M)]
      apply ih conditions.2 sorts.2 _ single
      rintro ret ⟨⟩
      exact next

theorem choose_sorted {before : Option T} (sorted : ∀ ret, before = some ret → meaning.Sorted ret)
    (some_value : before = none → entries ≠ []) :
    ∃ t, choose mkIf before entries = some t ∧ meaning.Sorted t := by
  induction entries generalizing before with
  | nil =>
    cases before with
    | none => exact absurd rfl (some_value rfl)
    | some ret => exact ⟨ret, rfl, sorted ret rfl⟩
  | cons entry rest ih =>
    rw [conditions_cons] at conditions
    rw [List.map_cons, List.forall_mem_cons] at sorts
    have next := meaning.sorted_joined conditions.1 sorts.1 sorted
    rw [choose]
    split
    · exact ⟨_, rfl, sorts.1⟩
    · have later : ∀ ret, some (joined mkIf entry.2 entry.1 before) = some ret →
          meaning.Sorted ret := by
        rintro ret ⟨⟩
        exact next
      exact ih conditions.2 sorts.2 later fun absent => by cases absent

end

theorem toValue_of_nil (empty : self.vals.entries = []) : self.toValue mkIf = self.defaultVal := by
  rw [toValue, mkOr, empty]
  rfl

variable (conditions : Conditions self.vals.entries)
    (sorts : ∀ v ∈ self.vals.entries.map Prod.fst, meaning.Sorted v)

include conditions sorts

theorem toValue_sorted (nonempty : self.vals.entries ≠ []) :
    ∃ t, self.toValue mkIf = some t ∧ meaning.Sorted t := by
  have unset : ∀ ret : T, none = some ret → meaning.Sorted ret := fun ret absent => by cases absent
  obtain ⟨t, known, sorted⟩ := choose_sorted conditions sorts unset fun _ => nonempty
  exact ⟨t, by rw [toValue, mkOr, known, Option.some_or], sorted⟩

theorem toValue_of_picked (single : picked M self.vals.entries = [v]) :
    ∃ t, self.toValue mkIf = some t ∧ meaning.Sorted t ∧ meaning.value t M = meaning.value v M := by
  have unset : ∀ ret : T, none = some ret → meaning.Sorted ret := fun ret absent => by cases absent
  obtain ⟨t, known, sorted, value⟩ := choose_of_picked conditions sorts unset single
  exact ⟨t, by rw [toValue, mkOr, known, Option.some_or], sorted, value⟩

end

end DisjointExpr

end AliveNext.Smt
