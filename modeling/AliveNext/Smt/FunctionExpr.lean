import AliveNext.Smt.Choice

/-!
# Functions as maps

`FunctionExpr` is a finite map from terms to terms. As a function it is read at any term:
the entries become the domains of a `DisjointExpr`.
-/

namespace AliveNext.Smt

/-- `std::map<expr, expr>`, by the order of the keys. -/
structure FunctionExpr where
  fn : List (Expr × Expr) := []
  nodup : (fn.map Prod.fst).Nodup := by simp

namespace FunctionExpr

def empty : FunctionExpr := {}

def keys (self : FunctionExpr) : List Expr := self.fn.map Prod.fst

variable (z : Z3) (less : Expr → Expr → Bool)

/-- `add` of one entry. An entry that the key has is kept. -/
def add (self : FunctionExpr) (key val : Expr) : FunctionExpr :=
  if present : key ∈ self.fn.map Prod.fst then self
  else
    { fn := self.fn.orderedInsert (fun a b => less a.1 b.1 = true) (key, val)
      nodup := by
        have perm := (List.perm_orderedInsert (fun a b => less a.1 b.1 = true) (key, val)
          self.fn).map Prod.fst
        exact perm.nodup_iff.2 (List.nodup_cons.2 ⟨present, self.nodup⟩) }

/-- `insert` of a range of entries. -/
def addEach (self : FunctionExpr) (entries : List (Expr × Expr)) : FunctionExpr :=
  entries.foldl (fun self entry => self.add less entry.1 entry.2) self

/-- `add` of another function. -/
def addAll (self other : FunctionExpr) : FunctionExpr := self.addEach less other.fn

def replace (self : FunctionExpr) (key val : Expr) : FunctionExpr :=
  if key ∈ self.fn.map Prod.fst then
    { fn := self.fn.map fun entry => (entry.1, if entry.1 = key then val else entry.2)
      nodup := by simpa [List.map_map, Function.comp_def] using self.nodup }
  else self.add less key val

/-- `operator()`. -/
def apply (self : FunctionExpr) (key : Expr) : Option Expr :=
  (DisjointExpr.addEach less {} (self.fn.map fun entry =>
    (entry.2, Expr.cmpEq z entry.1 key))).toValue (Expr.mkIf z)

def lookup (self : FunctionExpr) (key : Expr) : Option Expr :=
  (self.fn.find? fun entry => entry.1 = key).map Prod.snd

/-- The entries of `mkIf`, which walks over the two maps side by side. -/
def mkIfEntries (cond : Expr) (then_ els : List (Expr × Expr)) : List (Expr × Expr) :=
  List.zipWith (fun entry other => (entry.1, Expr.mkIf z cond entry.2 other.2)) then_ els

theorem keys_mkIfEntries {cond : Expr} {then_ els : List (Expr × Expr)} :
    ((mkIfEntries z cond then_ els).map Prod.fst).Sublist (then_.map Prod.fst) := by
  induction then_ generalizing els with
  | nil => exact List.Sublist.slnil
  | cons entry rest ih =>
    cases els with
    | nil => exact List.nil_sublist _
    | cons other more => exact ih.cons_cons entry.1

def mkIf (cond : Expr) (then_ els : FunctionExpr) : FunctionExpr where
  fn := mkIfEntries z cond then_.fn els.fn
  nodup := then_.nodup.sublist (keys_mkIfEntries z)

variable {z} {less} {self other then_ els : FunctionExpr} {key val cond : Expr}
  {entry : Expr × Expr}

theorem mem_keys : key ∈ self.keys ↔ ∃ val, (key, val) ∈ self.fn := by
  unfold keys
  simp

theorem val_unique
    {a b : Expr} (first : (key, a) ∈ self.fn) (second : (key, b) ∈ self.fn) : a = b :=
  congrArg Prod.snd (List.inj_on_of_nodup_map self.nodup first second rfl)

theorem mem_add : entry ∈ (self.add less key val).fn ↔
      entry ∈ self.fn ∨ key ∉ self.keys ∧ entry = (key, val) := by
  unfold add keys
  split
  · next present => simp [present]
  · next absent => simp [List.mem_orderedInsert, absent, or_comm]

theorem mem_keys_add
    {other : Expr} : other ∈ (self.add less key val).keys ↔ other = key ∨ other ∈ self.keys := by
  unfold add keys
  split
  · next present =>
    constructor
    · exact .inr
    · rintro (rfl | old)
      · exact present
      · exact old
  · have perm := (List.perm_orderedInsert (fun a b => less a.1 b.1 = true) (key, val)
      self.fn).map Prod.fst
    exact perm.mem_iff.trans List.mem_cons

variable {entries first second : List (Expr × Expr)}

theorem mem_of_mem_addEach
    (member : entry ∈ (self.addEach less entries).fn) : entry ∈ self.fn ∨ entry ∈ entries := by
  induction entries generalizing self with
  | nil => exact .inl member
  | cons head rest ih =>
    rw [List.mem_cons]
    rcases ih member with old | later
    · rcases mem_add.1 old with old | ⟨_, rfl⟩
      · exact .inl old
      · exact .inr (.inl rfl)
    · exact .inr (.inr later)

theorem mem_keys_addEach :
    key ∈ (self.addEach less entries).keys ↔ key ∈ self.keys ∨ key ∈ entries.map Prod.fst := by
  induction entries generalizing self with
  | nil => simp [addEach]
  | cons head rest ih =>
    have next : key ∈ (self.addEach less (head :: rest)).keys ↔
        key ∈ (self.add less head.1 head.2).keys ∨ key ∈ rest.map Prod.fst := ih
    rw [next, mem_keys_add, List.map_cons, List.mem_cons]
    tauto

theorem keys_replace
    (present : key ∈ self.keys) : (self.replace less key val).keys = self.keys := by
  unfold replace keys
  unfold keys at present
  rw [if_pos present]
  simp [Function.comp_def]

theorem mem_of_mem_replace (member : entry ∈ (self.replace less key val).fn) :
    entry = (key, val) ∨ entry ∈ self.fn := by
  unfold replace at member
  split at member
  · obtain ⟨old, inside, rfl⟩ := List.mem_map.1 member
    by_cases here : old.1 = key
    · rw [if_pos here, here]
      exact .inl rfl
    · rw [if_neg here]
      exact .inr inside
  · rcases mem_add.1 member with old | ⟨_, same⟩
    · exact .inr old
    · exact .inl same

theorem lookup_eq_some : self.lookup key = some val ↔ (key, val) ∈ self.fn := by
  unfold lookup
  constructor
  · intro found
    obtain ⟨entry, here, rfl⟩ := Option.map_eq_some_iff.1 found
    have same : entry.1 = key := by simpa using List.find?_some here
    rw [← same]
    exact List.mem_of_find?_eq_some here
  · intro member
    cases found : self.fn.find? fun entry => entry.1 = key with
    | none =>
      have absent := List.find?_eq_none.1 found (key, val) member
      simp at absent
    | some entry =>
      have same : entry.1 = key := by simpa using List.find?_some found
      have inside := List.mem_of_find?_eq_some found
      rw [← Prod.eta entry, same] at inside
      rw [Option.map_some, val_unique inside member]

theorem lookup_eq_none : self.lookup key = none ↔ key ∉ self.keys := by
  rw [mem_keys, not_exists]
  constructor
  · intro absent val member
    rw [lookup_eq_some.2 member] at absent
    cases absent
  · intro absent
    cases found : self.lookup key with
    | none => rfl
    | some val => exact absurd (lookup_eq_some.1 found) (absent val)

theorem map_mkIfEntries (same_keys : first.map Prod.fst = second.map Prod.fst) :
    (mkIfEntries z cond first second).map Prod.fst = first.map Prod.fst := by
  induction first generalizing second with
  | nil => rfl
  | cons entry rest ih =>
    cases second with
    | nil => cases same_keys
    | cons other more =>
      rw [List.map_cons, List.map_cons, List.cons.injEq] at same_keys
      exact congrArg (entry.1 :: ·) (ih same_keys.2)

theorem keys_mkIf (same_keys : then_.keys = els.keys) : (mkIf z cond then_ els).keys = then_.keys :=
  map_mkIfEntries same_keys

theorem mem_mkIfEntries (same_keys : first.map Prod.fst = second.map Prod.fst)
    (member : entry ∈ mkIfEntries z cond first second) :
    ∃ a b, (entry.1, a) ∈ first ∧ (entry.1, b) ∈ second ∧ entry.2 = Expr.mkIf z cond a b := by
  induction first generalizing second with
  | nil => cases member
  | cons head rest ih =>
    cases second with
    | nil => cases same_keys
    | cons other more =>
      rw [List.map_cons, List.map_cons, List.cons.injEq] at same_keys
      rcases List.mem_cons.1 member with rfl | later
      · refine ⟨head.2, other.2, List.mem_cons_self, ?_, rfl⟩
        rw [same_keys.1]
        exact List.mem_cons_self
      · obtain ⟨a, b, first, second, value⟩ := ih same_keys.2 later
        exact ⟨a, b, List.mem_cons_of_mem _ first, List.mem_cons_of_mem _ second, value⟩

theorem mem_mkIf (same_keys : then_.keys = els.keys) (member : entry ∈ (mkIf z cond then_ els).fn) :
    ∃ a b, (entry.1, a) ∈ then_.fn ∧ (entry.1, b) ∈ els.fn ∧ entry.2 = Expr.mkIf z cond a b :=
  mem_mkIfEntries same_keys member

structure Sorted (f : FunctionExpr) (w : Nat) (s : Srt) : Prop where
  keys : ∀ entry ∈ f.fn, entry.1.HasSort (.bv w)
  vals : ∀ entry ∈ f.fn, entry.2.HasSort s

section

variable {w : Nat} {s : Srt} {M : Model} {t : Expr}

def domains (z : Z3) (key : Expr) (entries : List (Expr × Expr)) : List (Expr × Expr) :=
  entries.map fun entry => (entry.2, Expr.cmpEq z entry.1 key)

variable {entries : List (Expr × Expr)}

theorem conditions_domains (sorted : ∀ entry ∈ entries, entry.1.HasSort (.bv w))
    (sorted_key : key.HasSort (.bv w)) : Conditions (domains z key entries) := by
  intro piece member
  obtain ⟨entry, inside, rfl⟩ := List.mem_map.1 member
  exact (Expr.cmpEq_decides_bv z (sorted entry inside) sorted_key).sorted

theorem picked_domains (sorted : ∀ entry ∈ entries, entry.1.HasSort (.bv w))
    (safe : ∀ entry ∈ entries, entry.1.NonzeroDivisors M) (sorted_key : key.HasSort (.bv w))
    (safe_key : key.NonzeroDivisors M) (apart : (entries.map fun entry => entry.1.toNat M).Nodup)
    (member : entry ∈ entries) (here : entry.1.toNat M = key.toNat M) :
    picked M (domains z key entries) = [entry.2] := by
  have truth : ∀ e ∈ entries, (Expr.cmpEq z e.1 key).truth M = true ↔
      e.1.toNat M = key.toNat M := fun e inside =>
    (Expr.cmpEq_decides_bv z (sorted e inside) sorted_key).truth M
      (Expr.safe_pair.2 ⟨safe e inside, safe_key⟩)
  clear sorted safe
  induction entries with
  | nil => cases member
  | cons head rest ih =>
    rw [List.forall_mem_cons] at truth
    rw [List.map_cons, List.nodup_cons] at apart
    rw [domains, List.map_cons, ← domains, picked_cons]
    rcases List.mem_cons.1 member with rfl | later
    · have others : picked M (domains z key rest) = [] := by
        rw [picked_eq_nil]
        intro piece inside
        obtain ⟨e, old, rfl⟩ := List.mem_map.1 inside
        rw [← Bool.not_eq_true, truth.2 e old, ← here]
        intro same
        exact apart.1 (List.mem_map.2 ⟨e, old, same⟩)
      rw [if_pos (truth.1.2 here), others]
    · have missed : ¬(Expr.cmpEq z head.1 key).truth M = true := by
        rw [truth.1, ← here]
        intro same
        exact apart.1 (List.mem_map.2 ⟨entry, later, same.symm⟩)
      rw [if_neg missed]
      exact ih apart.2 later truth.2

variable (z) (less)

/-- The domains of `operator()`. -/
def disjoint (self : FunctionExpr) (key : Expr) : DisjointExpr Expr :=
  DisjointExpr.addEach less {} (domains z key self.fn)

theorem apply_eq : self.apply z less key = (self.disjoint z less key).toValue (Expr.mkIf z) := rfl

variable {z} {less}

theorem disjoint_sorted (sorted : self.Sorted w s) (sorted_key : key.HasSort (.bv w)) :
    Conditions (self.disjoint z less key).vals.entries ∧
      ∀ v ∈ (self.disjoint z less key).vals.entries.map Prod.fst, v.HasSort s := by
  constructor
  · apply DisjointExpr.conditions_addEach
    · exact List.forall_mem_nil _
    · exact conditions_domains sorted.keys sorted_key
  · intro v member
    rcases DisjointExpr.mem_addEach member with inside | before
    · obtain ⟨piece, given, rfl⟩ := List.mem_map.1 inside
      obtain ⟨entry, old, rfl⟩ := List.mem_map.1 given
      exact sorted.vals entry old
    · exact absurd before List.not_mem_nil

theorem apply_sorted (sorted : self.Sorted w s) (sorted_key : key.HasSort (.bv w))
    (known : self.apply z less key = some t) : t.HasSort s := by
  have sorts : Conditions (self.disjoint z less key).vals.entries ∧
      ∀ v ∈ (self.disjoint z less key).vals.entries.map Prod.fst, (Expr.meaning z s).Sorted v :=
    disjoint_sorted sorted sorted_key
  rw [apply_eq] at known
  by_cases empty : (self.disjoint z less key).vals.entries = []
  · rw [DisjointExpr.toValue_of_nil empty, disjoint, DisjointExpr.defaultVal_addEach] at known
    cases known
  · obtain ⟨t', found, sorted_t⟩ := DisjointExpr.toValue_sorted sorts.1 sorts.2 empty
    rw [known] at found
    cases found
    exact sorted_t

theorem apply_of_mem (sorted : self.Sorted w s)
    (safe : ∀ entry ∈ self.fn, entry.1.NonzeroDivisors M) (sorted_key : key.HasSort (.bv w))
    (safe_key : key.NonzeroDivisors M) (apart : (self.fn.map fun entry => entry.1.toNat M).Nodup)
    (member : entry ∈ self.fn) (here : entry.1.toNat M = key.toNat M) :
    ∃ t, self.apply z less key = some t ∧ t.HasSort s ∧ t.eval M = entry.2.eval M := by
  have sorts : Conditions (self.disjoint z less key).vals.entries ∧
      ∀ v ∈ (self.disjoint z less key).vals.entries.map Prod.fst, (Expr.meaning z s).Sorted v :=
    disjoint_sorted sorted sorted_key
  have picked_here := picked_domains (z := z) sorted.keys safe sorted_key safe_key apart member here
  have single : picked M (self.disjoint z less key).vals.entries = [entry.2] := by
    have nothing : Conditions ({} : DisjointExpr Expr).vals.entries :=
      List.forall_mem_nil _
    have all : domains z key self.fn ++ ({} : DisjointExpr Expr).vals.entries =
        domains z key self.fn := List.append_nil _
    have one : (picked M (domains z key self.fn ++
        ({} : DisjointExpr Expr).vals.entries)).length ≤ 1 := by
      rw [all, picked_here, List.length_singleton]
    rw [disjoint, DisjointExpr.picked_addEach nothing
      (conditions_domains sorted.keys sorted_key) one, all]
    exact picked_here
  exact DisjointExpr.toValue_of_picked sorts.1 sorts.2 single

end

end FunctionExpr

end AliveNext.Smt
