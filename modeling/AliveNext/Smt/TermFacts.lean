import AliveNext.Smt.Term

/-!
# Sorts and values of terms

A well-sorted term has a value of its sort in every model. The values of
bit-vector terms are read as numbers (`toNat`) or as `BitVec` (`bv`), those of
boolean terms as `Bool` (`truth`); one lemma for each operator says what it
does to them.
-/

namespace AliveNext.Smt

theorem two_pow_half {w : Nat} (positive : 0 < w) : 2 ^ w = 2 * 2 ^ (w - 1) := by
  rw [← Nat.pow_succ', Nat.succ_eq_add_one, Nat.sub_add_cancel positive]

namespace Value

@[simp] theorem sort_of (s : Srt) (v : s.Val) : (of s v).sort = s := by
  cases s <;> rfl

@[simp] theorem get_of (s : Srt) (v : s.Val) : (of s v).get s = v := by
  rw [get, dif_pos (sort_of s v)]
  cases s <;> rfl

variable {v a b : Value} {w : Nat}

theorem of_get {s : Srt} (sorted : v.sort = s) : of s (v.get s) = v := by
  subst sorted
  rw [get, dif_pos rfl]
  cases v <;> rfl

@[simp] theorem same_iff (a b : Value) : a.same b = true ↔ a = b := by
  cases a with
  | bool x => cases b <;> simp [same]
  | bv v x =>
    cases b with
    | bv w y =>
      simp only [same, Bool.and_eq_true, beq_iff_eq, bv.injEq]
      constructor
      · rintro ⟨rfl, equal⟩
        exact ⟨rfl, heq_of_eq (BitVec.eq_of_toNat_eq equal)⟩
      · rintro ⟨rfl, equal⟩
        exact ⟨rfl, congrArg BitVec.toNat (eq_of_heq equal)⟩
    | bool y => simp [same]
    | array domain range y => simp [same]
    | other kind y => simp [same]
  | array domain range x => simp [same]
  | other kind x => simp [same]

theorem bv_of_sort (sorted : v.sort = .bv w) : v = .bv w (v.toBV w) := by
  cases v with
  | bv bits value =>
    cases sorted
    simp [toBV]
  | bool value => cases sorted
  | array domain range value => cases sorted
  | other kind value => cases sorted

theorem bool_of_sort (sorted : v.sort = .bool) : v = .bool v.toBool := by
  cases v with
  | bool value => rfl
  | bv bits value => cases sorted
  | array domain range value => cases sorted
  | other kind value => cases sorted

theorem array_of_sort {domain range : Srt} (sorted : v.sort = .array domain range) :
    v = .array domain range (v.get (.array domain range)) :=
  (of_get sorted).symm

theorem sort_append {v : Nat} (left : a.sort = .bv v) (right : b.sort = .bv w) :
    (a.append b).sort = .bv (v + w) := by
  rw [bv_of_sort left, bv_of_sort right]
  rfl

theorem sort_foldl_append {v : Nat} (first : a.sort = .bv v) (rest : List Value)
    (sorted : ∀ b ∈ rest, ∃ w, b.sort = .bv w) :
    (rest.foldl append a).sort = .bv (v + (rest.map fun b => b.sort.bits).sum) := by
  induction rest generalizing a v with
  | nil => simpa using first
  | cons b rest ih =>
    obtain ⟨w, hw⟩ := sorted b List.mem_cons_self
    rw [List.foldl_cons, ih (sort_append first hw)
      fun c member => sorted c (List.mem_cons_of_mem b member)]
    simp [hw, Srt.bits, Nat.add_assoc]

theorem bv_cast {v : Nat} (equal : v = w) (x : BitVec v) : Value.bv w (x.cast equal) = .bv v x := by
  subst equal
  rw [BitVec.cast_eq]

theorem append_assoc {c : Value} (first : ∃ w, a.sort = .bv w) (second : ∃ w, b.sort = .bv w)
    (third : ∃ w, c.sort = .bv w) : (a.append b).append c = a.append (b.append c) := by
  obtain ⟨u, first⟩ := first
  obtain ⟨v, second⟩ := second
  obtain ⟨w, third⟩ := third
  rw [bv_of_sort first, bv_of_sort second, bv_of_sort third]
  simp only [append]
  rw [BitVec.append_assoc, bv_cast]

end Value

namespace Op

theorem isBV_iff {s : Srt} : s.isBV = true ↔ ∃ w, s = .bv w := by
  cases s <;> simp [Srt.isBV]

variable {sorts : List Srt}

theorem accepts_bv {op : BvOp} : (Op.bv op).accepts sorts = true ↔
      ∃ w s rest, sorts = .bv w :: s :: rest ∧
        (∀ t ∈ s :: rest, t = .bv w) ∧ (op.flattens = true ∨ rest = []) := by
  unfold accepts
  dsimp only
  constructor
  · intro accepted
    split at accepted
    · simp only [Bool.and_eq_true, List.all_eq_true, beq_iff_eq, Bool.or_eq_true,
        List.isEmpty_iff] at accepted
      exact ⟨_, _, _, rfl, accepted⟩
    · cases accepted
  · rintro ⟨w, s, rest, rfl, accepted⟩
    simp only [Bool.and_eq_true, List.all_eq_true, beq_iff_eq, Bool.or_eq_true, List.isEmpty_iff]
    exact accepted

theorem accepts_bvnot : Op.bvnot.accepts sorts = true ↔ ∃ w, sorts = [.bv w] := by
  unfold accepts
  dsimp only
  constructor
  · intro accepted
    split at accepted
    · obtain ⟨w, rfl⟩ := isBV_iff.1 accepted
      exact ⟨w, rfl⟩
    · cases accepted
  · rintro ⟨w, rfl⟩
    rfl

theorem accepts_signExt {amount : Nat} :
    (Op.signExt amount).accepts sorts = true ↔ ∃ w, sorts = [.bv w] :=
  accepts_bvnot

theorem accepts_ule : Op.ule.accepts sorts = true ↔ ∃ w, sorts = [.bv w, .bv w] := by
  unfold accepts
  dsimp only
  constructor
  · intro accepted
    split at accepted
    · rw [Bool.and_eq_true, beq_iff_eq] at accepted
      obtain ⟨width, rfl⟩ := accepted
      obtain ⟨w, rfl⟩ := isBV_iff.1 width
      exact ⟨w, rfl⟩
    · cases accepted
  · rintro ⟨w, rfl⟩
    simp [Srt.isBV]

theorem accepts_sle : Op.sle.accepts sorts = true ↔ ∃ w, sorts = [.bv w, .bv w] :=
  accepts_ule

theorem accepts_concat : Op.concat.accepts sorts = true ↔
      2 ≤ sorts.length ∧ ∀ s ∈ sorts, ∃ w, s = .bv w := by
  simp [accepts, isBV_iff]

theorem accepts_extract {high low : Nat} : (Op.extract high low).accepts sorts = true ↔
      ∃ w, sorts = [.bv w] ∧ low ≤ high ∧ high < w := by
  unfold accepts
  dsimp only
  constructor
  · intro accepted
    split at accepted
    · simp_all
    · cases accepted
  · rintro ⟨w, rfl, ordered, inside⟩
    simp [ordered, inside]

theorem accepts_eq : Op.eq.accepts sorts = true ↔ ∃ s, sorts = [s, s] := by
  unfold accepts
  dsimp only
  constructor
  · intro accepted
    split at accepted
    · simp_all
    · cases accepted
  · rintro ⟨s, rfl⟩
    simp

theorem accepts_ite : Op.ite.accepts sorts = true ↔ ∃ s, sorts = [.bool, s, s] := by
  unfold accepts
  dsimp only
  constructor
  · intro accepted
    split at accepted
    · simp_all
    · cases accepted
  · rintro ⟨s, rfl⟩
    simp

theorem accepts_and : Op.and.accepts sorts = true ↔ 2 ≤ sorts.length ∧ ∀ s ∈ sorts, s = .bool := by
  simp [accepts]

theorem accepts_or : Op.or.accepts sorts = true ↔ 2 ≤ sorts.length ∧ ∀ s ∈ sorts, s = .bool :=
  accepts_and

theorem accepts_not : Op.not.accepts sorts = true ↔ sorts = [.bool] := by
  simp [accepts]

theorem accepts_constArray {domain : Srt} : (Op.constArray domain).accepts sorts = true ↔
      ∃ s, sorts = [s] ∧ domain.wf = true := by
  simp [accepts, List.length_eq_one_iff]

theorem accepts_store : Op.store.accepts sorts = true ↔
      ∃ domain range, sorts = [.array domain range, domain, range] := by
  unfold accepts
  dsimp only
  constructor
  · intro accepted
    split at accepted
    · simp_all
    · cases accepted
  · rintro ⟨domain, range, rfl⟩
    simp

theorem accepts_select : Op.select.accepts sorts = true ↔
      ∃ domain range, sorts = [.array domain range, domain] := by
  unfold accepts
  dsimp only
  constructor
  · intro accepted
    split at accepted
    · simp_all
    · cases accepted
  · rintro ⟨domain, range, rfl⟩
    simp

end Op

namespace Expr

@[simp] theorem sorts_eq_map (args : List Expr) : sorts args = args.map sort := by
  induction args with
  | nil => rfl
  | cons e es ih => simp [sorts, ih]

@[simp] theorem evals_eq_map (args : List Expr) (M : Model) :
    evals args M = args.map (eval · M) := by
  induction args with
  | nil => rfl
  | cons e es ih => simp [evals, ih]

@[simp] theorem wellSortedAll_iff (args : List Expr) :
    wellSortedAll args = true ↔ ∀ e ∈ args, e.wellSorted = true := by
  induction args with
  | nil => simp [wellSortedAll]
  | cons e es ih => simp [wellSortedAll, ih]

@[simp] theorem nonzeroDivisorsAll_iff (args : List Expr) (M : Model) :
    NonzeroDivisorsAll args M ↔ ∀ e ∈ args, e.NonzeroDivisors M := by
  induction args with
  | nil => simp [NonzeroDivisorsAll]
  | cons e es ih => simp [NonzeroDivisorsAll, ih]

@[simp] theorem sizes_eq_sum (args : List Expr) : sizes args = (args.map size).sum := by
  induction args with
  | nil => rfl
  | cons e es ih => simp [sizes, ih]

theorem induction
    {P : Expr → Prop} (num : ∀ bits value, P (.num bits value)) (bool : ∀ value, P (.bool value))
    (var : ∀ name s, P (.var name s)) (bound : ∀ index s, P (.bound index s))
    (app : ∀ op args, (∀ e ∈ args, P e) → P (.app op args))
    (lambda : ∀ domain name body, P body → P (.lambda domain name body)) (e : Expr) : P e :=
  Expr.rec (motive_1 := P) (motive_2 := fun args => ∀ e ∈ args, P e) num bool var bound app lambda
    (List.forall_mem_nil P) (fun _ _ first rest => List.forall_mem_cons.2 ⟨first, rest⟩) e

theorem size_app {op : Op} (args : List Expr) (other : ∀ amount, op ≠ .signExt amount) :
    size (.app op args) = (args.map size).sum + max 1 (args.length - 1) := by
  rw [size, sizes_eq_sum]
  exact fun amount same => other amount same

theorem size_pos (e : Expr) : 0 < e.size := by
  cases e with
  | app op args =>
    unfold size
    split <;> omega
  | num bits value => exact Nat.one_pos
  | bool value => exact Nat.one_pos
  | var name s => exact Nat.one_pos
  | bound index s => exact Nat.one_pos
  | lambda domain name body => exact Nat.succ_pos _

theorem sort_denote
    (M : Model) {op : Op} {args : List Value} (accepted : op.accepts (args.map Value.sort) = true) :
    (op.denote M args).sort = op.sort (args.map Value.sort) := by
  cases op with
  | bv op =>
    obtain ⟨w, s, rest, shape, -⟩ := Op.accepts_bv.1 accepted
    obtain ⟨a, others, rfl, first, -⟩ := List.map_eq_cons_iff.1 shape
    rw [Value.bv_of_sort first]
    rfl
  | bvnot =>
    obtain ⟨w, shape⟩ := Op.accepts_bvnot.1 accepted
    obtain ⟨a, rfl, sorted⟩ := List.map_eq_singleton_iff.1 shape
    rw [Value.bv_of_sort sorted]
    rfl
  | ule =>
    obtain ⟨w, shape⟩ := Op.accepts_ule.1 accepted
    obtain ⟨a, others, rfl, first, shape⟩ := List.map_eq_cons_iff.1 shape
    obtain ⟨b, rfl, -⟩ := List.map_eq_singleton_iff.1 shape
    rw [Value.bv_of_sort first]
    rfl
  | sle =>
    obtain ⟨w, shape⟩ := Op.accepts_sle.1 accepted
    obtain ⟨a, others, rfl, first, shape⟩ := List.map_eq_cons_iff.1 shape
    obtain ⟨b, rfl, -⟩ := List.map_eq_singleton_iff.1 shape
    rw [Value.bv_of_sort first]
    rfl
  | concat =>
    obtain ⟨long, widths⟩ := Op.accepts_concat.1 accepted
    cases args with
    | nil => simp at long
    | cons a others =>
      simp only [List.mem_map, forall_exists_index, and_imp, forall_apply_eq_imp_iff₂] at widths
      obtain ⟨v, sorted⟩ := widths a List.mem_cons_self
      rw [Op.denote, Value.sort_foldl_append sorted others
        fun b member => widths b (List.mem_cons_of_mem a member)]
      simp [Op.sort, sorted, Srt.bits, Function.comp_def]
  | extract high low =>
    obtain ⟨w, shape, -⟩ := Op.accepts_extract.1 accepted
    obtain ⟨a, rfl, sorted⟩ := List.map_eq_singleton_iff.1 shape
    rw [Value.bv_of_sort sorted]
    rfl
  | signExt amount =>
    obtain ⟨w, shape⟩ := Op.accepts_signExt.1 accepted
    obtain ⟨a, rfl, sorted⟩ := List.map_eq_singleton_iff.1 shape
    rw [Value.bv_of_sort sorted]
    rfl
  | eq =>
    obtain ⟨s, shape⟩ := Op.accepts_eq.1 accepted
    obtain ⟨a, others, rfl, -, shape⟩ := List.map_eq_cons_iff.1 shape
    obtain ⟨b, rfl, -⟩ := List.map_eq_singleton_iff.1 shape
    rfl
  | ite =>
    obtain ⟨s, shape⟩ := Op.accepts_ite.1 accepted
    obtain ⟨c, others, rfl, -, shape⟩ := List.map_eq_cons_iff.1 shape
    obtain ⟨a, others, rfl, first, shape⟩ := List.map_eq_cons_iff.1 shape
    obtain ⟨b, rfl, second⟩ := List.map_eq_singleton_iff.1 shape
    cases holds : c.toBool <;> simp [Op.denote, Op.sort, holds, first, second]
  | and => rfl
  | or => rfl
  | not => rfl
  | constArray domain =>
    obtain ⟨s, shape, -⟩ := Op.accepts_constArray.1 accepted
    obtain ⟨a, rfl, -⟩ := List.map_eq_singleton_iff.1 shape
    rfl
  | store =>
    obtain ⟨domain, range, shape⟩ := Op.accepts_store.1 accepted
    obtain ⟨a, others, rfl, first, shape⟩ := List.map_eq_cons_iff.1 shape
    obtain ⟨i, others, rfl, -, shape⟩ := List.map_eq_cons_iff.1 shape
    obtain ⟨v, rfl, -⟩ := List.map_eq_singleton_iff.1 shape
    rw [Value.array_of_sort first]
    rfl
  | select =>
    obtain ⟨domain, range, shape⟩ := Op.accepts_select.1 accepted
    obtain ⟨a, others, rfl, first, shape⟩ := List.map_eq_cons_iff.1 shape
    obtain ⟨i, rfl, -⟩ := List.map_eq_singleton_iff.1 shape
    rw [Value.array_of_sort first]
    exact Value.sort_of range _
  | fn name range => exact Value.sort_of range _

theorem eval_sort {e : Expr} (M : Model) (sorted : e.wellSorted = true) :
    (e.eval M).sort = e.sort := by
  induction e using Expr.induction generalizing M with
  | num bits value => rfl
  | bool value => rfl
  | var name s => exact Value.sort_of s _
  | bound index s => exact Value.sort_of s _
  | app op args ih =>
    rw [wellSorted, Bool.and_eq_true, wellSortedAll_iff] at sorted
    have sorts_eq : (evals args M).map Value.sort = sorts args := by
      rw [evals_eq_map, sorts_eq_map, List.map_map]
      exact List.map_congr_left fun e member => ih e member M (sorted.1 e member)
    rw [eval, sort, sort_denote M (by rw [sorts_eq]; exact sorted.2), sorts_eq]
  | lambda domain name body ih => rfl

theorem sort_wf {e : Expr} (sorted : e.wellSorted = true) : e.sort.wf = true := by
  induction e using Expr.induction with
  | num bits value => exact sorted
  | bool value => rfl
  | var name s => exact sorted
  | bound index s => exact sorted
  | lambda domain name body ih =>
    rw [wellSorted, Bool.and_eq_true] at sorted
    rw [sort, Srt.wf, Bool.and_eq_true]
    exact ⟨sorted.1, ih sorted.2⟩
  | app op args ih =>
    rw [wellSorted, Bool.and_eq_true, wellSortedAll_iff] at sorted
    have parts : ∀ s ∈ sorts args, s.wf = true := by
      intro s member
      rw [sorts_eq_map] at member
      obtain ⟨e, inside, rfl⟩ := List.mem_map.1 member
      exact ih e inside (sorted.1 e inside)
    have accepted := sorted.2
    rw [sort]
    generalize sorts args = list at parts accepted
    cases op with
    | bv op =>
      obtain ⟨w, s, rest, rfl, -⟩ := Op.accepts_bv.1 accepted
      exact parts _ List.mem_cons_self
    | bvnot =>
      obtain ⟨w, rfl⟩ := Op.accepts_bvnot.1 accepted
      exact parts _ List.mem_cons_self
    | concat =>
      obtain ⟨long, widths⟩ := Op.accepts_concat.1 accepted
      cases list with
      | nil => simp at long
      | cons s others =>
        obtain ⟨w, rfl⟩ := widths s List.mem_cons_self
        have first := parts _ List.mem_cons_self
        simp_all [Op.sort, Srt.wf, Srt.bits]
    | extract high low => simp [Op.sort, Srt.wf]
    | signExt amount =>
      obtain ⟨w, rfl⟩ := Op.accepts_signExt.1 accepted
      have first := parts _ List.mem_cons_self
      simp_all [Op.sort, Srt.wf, Srt.bits]
    | ite =>
      obtain ⟨s, rfl⟩ := Op.accepts_ite.1 accepted
      exact parts s (by simp)
    | constArray domain =>
      obtain ⟨s, rfl, wf⟩ := Op.accepts_constArray.1 accepted
      simp [Op.sort, Srt.wf, wf, parts]
    | store =>
      obtain ⟨domain, range, rfl⟩ := Op.accepts_store.1 accepted
      exact parts _ List.mem_cons_self
    | select =>
      obtain ⟨domain, range, rfl⟩ := Op.accepts_select.1 accepted
      have first := parts _ List.mem_cons_self
      rw [Srt.wf, Bool.and_eq_true] at first
      exact first.2
    | fn name range =>
      exact accepted
    | ule => rfl
    | sle => rfl
    | eq => rfl
    | and => rfl
    | or => rfl
    | not => rfl

end Expr

end AliveNext.Smt
