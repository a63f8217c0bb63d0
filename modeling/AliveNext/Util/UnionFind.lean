import Mathlib

/-!
# Union-find

`util/unionfind.cpp`, without balancing. A `find` makes only its argument point to
the representative.
-/

namespace AliveNext.Util

structure UnionFind where
  id : Nat → Nat
  size : Nat

namespace UnionFind

def new (n : Nat) : UnionFind where
  id i := i
  size := n

def climb (id : Nat → Nat) : Nat → Nat → Nat
  | 0, root => root
  | steps + 1, root => if root = id root then root else climb id steps (id root)

def find (self : UnionFind) (i : Nat) : Nat × UnionFind :=
  let root := climb self.id self.size i
  (root, { self with id := Function.update self.id i root })

def merge (self : UnionFind) (p q : Nat) : Nat × UnionFind :=
  let (i, self) := self.find p
  let (j, self) := self.find q
  (j, { self with id := Function.update self.id i j })

def Descending (self : UnionFind) : Prop := ∀ i, self.id i ≤ i

/-- No number points to another one below `w`. -/
def Above (self : UnionFind) (w : Nat) : Prop := ∀ i, self.id i = i ∨ w ≤ self.id i

variable {self : UnionFind} {id : Nat → Nat} {i j p q w n : Nat}

/-- What holds along the pointers holds where they lead. -/
theorem climb_path {P : Nat → Prop} (step : ∀ i, P i → P (id i)) (first : P i) :
    P (climb id n i) := by
  induction n generalizing i with
  | zero => exact first
  | succ n ih =>
    rw [climb]
    split
    · exact first
    · exact ih (step i first)

theorem climb_le (descending : ∀ i, id i ≤ i) : climb id n i ≤ i :=
  climb_path (P := (· ≤ i)) (fun k le => (descending k).trans le) le_rfl

theorem climb_above (above : ∀ i, id i = i ∨ w ≤ id i) : climb id n i = i ∨ w ≤ climb id n i := by
  refine climb_path (P := fun k => k = i ∨ w ≤ k) (fun k old => ?_) (.inl rfl)
  rcases above k with root | pointer
  · rwa [root]
  · exact .inr pointer

theorem find_id : (self.find i).2.id = Function.update self.id i (self.find i).1 := rfl

theorem merge_id : (self.merge p q).2.id =
    Function.update ((self.find p).2.find q).2.id (self.find p).1 (self.merge p q).1 := rfl

theorem find_le (descending : self.Descending) : (self.find i).1 ≤ i := climb_le descending

theorem find_descending (descending : self.Descending) : (self.find i).2.Descending := by
  intro k
  rw [find_id]
  by_cases same : k = i
  · subst same
    rw [Function.update_self]
    exact find_le descending
  · rw [Function.update_of_ne same]
    exact descending k

theorem find_above (above : self.Above w) :
    ((self.find i).1 = i ∨ w ≤ (self.find i).1) ∧ (self.find i).2.Above w := by
  refine ⟨climb_above above, fun k => ?_⟩
  rw [find_id]
  by_cases same : k = i
  · subst same
    rw [Function.update_self]
    exact climb_above above
  · rw [Function.update_of_ne same]
    exact above k

theorem find_small (descending : self.Descending) (above : self.Above w)
    (small : i ≤ w) : (self.find i).1 = i := by
  have bound := find_le (i := i) descending
  rcases (find_above (i := i) above).1 with same | greater
  · exact same
  · exact le_antisymm bound (small.trans greater)

theorem merge_into (descending : self.Descending) (above : self.Above w) (greater : w ≤ p) :
    (self.merge p w).1 = w ∧ (self.merge p w).2.Descending ∧ (self.merge p w).2.Above w := by
  obtain ⟨found, above'⟩ := find_above (i := p) above
  have descending' := find_descending (i := p) descending
  have target : (self.merge p w).1 = w := find_small descending' above' (le_refl w)
  have large : w ≤ (self.find p).1 := by
    rcases found with same | more
    · rw [same]
      exact greater
    · exact more
  refine ⟨target, fun k => ?_, fun k => ?_⟩
  · rw [merge_id, target]
    by_cases same : k = (self.find p).1
    · rw [same, Function.update_self]
      exact large
    · rw [Function.update_of_ne same]
      exact find_descending descending' k
  · rw [merge_id, target]
    by_cases same : k = (self.find p).1
    · rw [same, Function.update_self]
      exact .inr (le_refl w)
    · rw [Function.update_of_ne same]
      exact (find_above above').2 k

def rep (self : UnionFind) (i : Nat) : Nat := climb self.id self.size i

theorem find_rep : (self.find i).1 = self.rep i := rfl

theorem climb_succ (ends : id (climb id n i) = climb id n i) :
    climb id (n + 1) i = climb id n i := by
  induction n generalizing i with
  | zero => exact if_pos (Eq.symm ends)
  | succ n ih =>
    by_cases root : i = id i
    · rw [climb, if_pos root, climb, if_pos root]
    · rw [climb, if_neg root] at ends ⊢
      rw [ih ends, climb, if_neg root]

/-- How many numbers up to `w` are as high as `i`. -/
def higher (h : Nat → Nat) (w i : Nat) : Nat :=
  ((Finset.range (w + 1)).filter fun k => h i ≤ h k).card

theorem higher_lt {h : Nat → Nat} (known : i ≤ w) (less : h i < h j) :
    higher h w j < higher h w i := by
  refine Finset.card_lt_card ((Finset.ssubset_iff_of_subset fun k member => ?_).2 ⟨i, ?_⟩)
  · rw [Finset.mem_filter] at member ⊢
    exact ⟨member.1, less.le.trans member.2⟩
  · simp [Nat.lt_succ_of_le known, less]

theorem climb_ends {h : Nat → Nat} (inside : ∀ i ≤ w, id i ≤ w)
    (rises : ∀ i ≤ w, id i ≠ i → h i < h (id i)) (known : i ≤ w)
    (enough : higher h w i ≤ n + 1) : id (climb id n i) = climb id n i := by
  induction n generalizing i with
  | zero =>
    by_contra pointer
    have fewer := higher_lt known (rises i known pointer)
    have some_ : 0 < higher h w (id i) :=
      Finset.card_pos.2 ⟨id i, by simp [Nat.lt_succ_of_le (inside i known)]⟩
    omega
  | succ n ih =>
    rw [climb]
    split
    · next root => exact root.symm
    · next pointer =>
      have fewer := higher_lt known (rises i known (Ne.symm pointer))
      exact ih (inside i known) (by omega)

/-! ## Representatives -/

/-- The pointers lead to the representatives `r`, and go up in some order. -/
structure Forest (u : UnionFind) (r : Nat → Nat) : Prop where
  inside : ∀ i ≤ u.size, u.id i ≤ u.size
  same : ∀ i ≤ u.size, r (u.id i) = r i
  root : ∀ i ≤ u.size, u.id i = i → r i = i
  rises : ∃ h : Nat → Nat, ∀ i ≤ u.size, u.id i ≠ i → h i < h (u.id i)

namespace Forest

variable {r : Nat → Nat} (forest : self.Forest r)

include forest

/-- A root points to another number, or a number to its root. -/
theorem point {r' h : Nat → Nat} (known : q ≤ self.size)
    (same : ∀ k ≤ self.size, r (self.id k) = r k → r' (self.id k) = r' k) (moved : r' q = r' p)
    (root : ∀ k ≤ self.size, r k = k → k ≠ p → r' k = k) (own : q = p → r' p = p)
    (rises : ∀ k ≤ self.size, self.id k ≠ k → h k < h (self.id k)) (order : q ≠ p → h p < h q) :
    Forest { self with id := Function.update self.id p q } r' := by
  refine ⟨fun k inside => ?_, fun k inside => ?_, fun k inside => ?_, h, fun k inside => ?_⟩ <;>
    simp only [Function.update_apply] <;> split
  · exact known
  · exact forest.inside k inside
  · next here => rw [here, moved]
  · exact same k inside (forest.same k inside)
  · next here => exact here ▸ own
  · next other => exact fun fixed => root k inside (forest.root k inside fixed) other
  · next here => exact here ▸ order
  · exact rises k inside

theorem find (known : i ≤ self.size) : (self.find i).1 = r i ∧ r i ≤ self.size ∧
    self.id (r i) = r i ∧ (self.find i).2.Forest r := by
  obtain ⟨h, rises⟩ := forest.rises
  have ends := climb_ends (n := self.size) forest.inside rises known
    ((Finset.card_filter_le _ _).trans (Finset.card_range _).le)
  have path : self.rep i ≤ self.size ∧ r (self.rep i) = r i ∧
      (self.rep i = i ∨ h i < h (self.rep i)) := by
    refine climb_path (P := fun k => k ≤ self.size ∧ r k = r i ∧ (k = i ∨ h i < h k))
      (fun k ⟨inside, same, order⟩ => ?_) ⟨known, rfl, .inl rfl⟩
    refine ⟨forest.inside k inside, (forest.same k inside).trans same, ?_⟩
    by_cases fixed : self.id k = k
    · rwa [fixed]
    · have more := rises k inside fixed
      rcases order with rfl | less
      · exact .inr more
      · exact .inr (less.trans more)
  have found : self.rep i = r i := (forest.root _ path.1 ends).symm.trans path.2.1
  have pointed := forest.point path.1 (fun _ _ same => same) path.2.1 (fun _ _ root _ => root)
    (fun here => found.symm.trans here) rises path.2.2.resolve_left
  rw [found] at path
  exact ⟨found, path.1, found ▸ ends, pointed⟩

/-- The root of `p` points to the root of `q`. -/
theorem merge (first : p ≤ self.size) (second : q ≤ self.size) :
    (self.merge p q).2.Forest fun k => if r k = r p then r q else r k := by
  obtain ⟨found, bound, -, forest'⟩ := forest.find first
  obtain ⟨found', bound', root', forest''⟩ := forest'.find second
  obtain ⟨-, -, root, -⟩ := forest''.find first
  obtain ⟨h, rises⟩ := forest''.rises
  have own : r (r p) = r p := forest''.root _ bound root
  have own' : r (r q) = r q := forest'.root _ bound' root'
  change Forest { ((self.find p).2.find q).2 with
    id := Function.update ((self.find p).2.find q).2.id (self.find p).1
      ((self.find p).2.find q).1 } _
  rw [found, found']
  -- The tree of `q` is raised above that of `p`.
  refine forest''.point (h := fun k => if r k = r q then h k + h (r p) + 1 else h k) bound'
    (fun k _ same => by rw [same]) (by simp [own, own'])
    (fun k _ root other => by rw [root, if_neg other]) (fun same => by rw [if_pos own, same])
    (fun k known pointer => ?_) fun other => ?_
  · have higher := rises k known pointer
    rw [forest''.same k known]
    split
    · omega
    · exact higher
  · rw [own, own', if_pos rfl, if_neg (Ne.symm other)]
    omega

end Forest

theorem rep_of_root (root : self.id i = i) : self.rep i = i := by
  rw [rep]
  cases self.size with
  | zero => rfl
  | succ n => rw [climb, if_pos root.symm]

theorem Descending.forest (descending : self.Descending) : self.Forest self.rep := by
  have inside : ∀ i ≤ self.size, self.id i ≤ self.size :=
    fun i known => (descending i).trans known
  have rises : ∀ i ≤ self.size, self.id i ≠ i → self.size - i < self.size - self.id i :=
    fun i known pointer => by
      have less := lt_of_le_of_ne (descending i) pointer
      omega
  refine ⟨inside, fun i known => ?_, fun _ _ => rep_of_root, _, rises⟩
  by_cases fixed : self.id i = i
  · rw [fixed]
  · have ends := climb_ends (h := fun i => self.size - i) inside rises known
      ((Finset.card_filter_le _ _).trans (Finset.card_range _).le)
    have next := climb_succ ends
    rw [climb, if_neg (Ne.symm fixed)] at next
    exact next

variable (descending : self.Descending)

include descending

theorem id_rep (inside : i ≤ self.size) : self.id (self.rep i) = self.rep i :=
  (descending.forest.find inside).2.2.1

theorem rep_rep (inside : i ≤ self.size) : self.rep (self.rep i) = self.rep i :=
  rep_of_root (id_rep descending inside)

theorem rep_find {k : Nat} (known : i ≤ self.size)
    (inside : k ≤ self.size) : (self.find i).2.rep k = self.rep k :=
  ((descending.forest.find known).2.2.2.find inside).1

section

variable (first : p ≤ self.size) (second : q ≤ self.size)

include first second

theorem merge_ids : (self.merge p q).2.id =
      Function.update ((self.find p).2.find q).2.id (self.rep p) (self.rep q) := by
  have target : (self.merge p q).1 = self.rep q := rep_find descending first second
  rw [merge_id, target]
  rfl

theorem merge_descending (smaller : self.rep q ≤ self.rep p) : (self.merge p q).2.Descending := by
  intro i
  rw [merge_ids descending first second]
  by_cases same : i = self.rep p
  · rw [same, Function.update_self]
    exact smaller
  · rw [Function.update_of_ne same]
    exact find_descending (find_descending descending) i

theorem rep_merge {k : Nat} (inside : k ≤ self.size) :
    (self.merge p q).2.rep k = if self.rep k = self.rep p then self.rep q else self.rep k :=
  ((descending.forest.merge first second).find inside).1

end

omit descending

/-- The structures that can be built, with the pairs that were merged. -/
inductive Built : UnionFind → List (Nat × Nat) → Prop where
  | new (n : Nat) : Built (new n) []
  | find {u : UnionFind} {pairs : List (Nat × Nat)} {i : Nat} (built : Built u pairs)
      (known : i < u.size) : Built (u.find i).2 pairs
  | merge {u : UnionFind} {pairs : List (Nat × Nat)} {p q : Nat} (built : Built u pairs)
      (first : p < u.size) (second : q < u.size) : Built (u.merge p q).2 ((p, q) :: pairs)

/-- Equality of numbers under the pairs. -/
def Connected (pairs : List (Nat × Nat)) : Nat → Nat → Prop :=
  Relation.EqvGen fun a b => (a, b) ∈ pairs

variable {pairs : List (Nat × Nat)}

theorem Built.forest (built : Built self pairs) : ∃ r, self.Forest r ∧
    (∀ pair ∈ pairs, r pair.1 = r pair.2) ∧ ∀ i ≤ self.size, Connected pairs i (r i) := by
  induction built with
  | new n =>
    exact ⟨fun i => i, ⟨fun _ known => known, fun _ _ => rfl, fun _ _ _ => rfl, fun i => i,
      fun _ _ other => absurd rfl other⟩, List.forall_mem_nil _, fun i _ => .refl i⟩
  | find _ known ih =>
    obtain ⟨r, forest, merged, related⟩ := ih
    exact ⟨r, (forest.find known.le).2.2.2, merged, related⟩
  | @merge u pairs p q _ first second ih =>
    obtain ⟨r, forest, merged, related⟩ := ih
    refine ⟨_, forest.merge first.le second.le, List.forall_mem_cons.2 ⟨by simp, ?_⟩, ?_⟩
    · intro pair member
      rw [merged pair member]
    · intro i known
      have wider : ∀ {a b}, Connected pairs a b → Connected ((p, q) :: pairs) a b :=
        fun related => related.mono fun _ _ => List.mem_cons_of_mem _
      have joined : Connected ((p, q) :: pairs) p q := .rel p q List.mem_cons_self
      split
      · next same =>
        have before : Connected pairs i p :=
          (related i known).trans _ _ _ (same ▸ (related p first.le).symm)
        exact (wider before).trans _ _ _ (joined.trans _ _ _ (wider (related q second.le)))
      · exact wider (related i known)

/-- `find` ends at a number that points to itself, in the class of its argument, and finds the
same for two numbers exactly if the merged pairs connect them. -/
theorem find_eq_iff (built : Built self pairs) (known : p < self.size) (known' : q < self.size) :
    (self.id (self.find p).1 = (self.find p).1 ∧ Connected pairs p (self.find p).1) ∧
      ((self.find p).1 = (self.find q).1 ↔ Connected pairs p q) := by
  obtain ⟨r, forest, merged, related⟩ := built.forest
  obtain ⟨found, -, root, -⟩ := forest.find known.le
  rw [found, (forest.find known'.le).1]
  refine ⟨⟨root, related p known.le⟩, fun same => ?_, fun connected => ?_⟩
  · exact (related p known.le).trans _ _ _ (same ▸ (related q known'.le).symm)
  · clear known known' found root
    induction connected with
    | rel a b member => exact merged (a, b) member
    | refl => rfl
    | symm _ _ _ ih => exact ih.symm
    | trans _ _ _ _ _ ih ih' => exact ih.trans ih'

def chain : UnionFind := (((new 3).merge 0 1).2.merge 2 1).2

theorem find_eq_iff_chain : (chain.find 0).1 = (chain.find 2).1 ↔ Connected [(2, 1), (0, 1)] 0 2 :=
  (find_eq_iff (((Built.new 3).merge (by decide) (by decide)).merge (by decide) (by decide))
    (by decide) (by decide)).2

end UnionFind

end AliveNext.Util
