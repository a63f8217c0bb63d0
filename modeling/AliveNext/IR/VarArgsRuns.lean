import AliveNext.IR.VarArgsSteps

/-!
# Variable arguments along a path

`State::startBB` joins the entries of the predecessors of a block (`ir/state.cpp`). The joins and
the operations of an acyclic function, and the lists of a run on one of its paths.
-/

namespace AliveNext.IR.VarArgs

variable {K Addr Ty V : Type}

/-! ## Joins -/

/-- The condition of an edge in a model; `constant` if the expression is a constant. -/
structure Domain where
  holds : Bool
  constant : Bool
  deriving DecidableEq

def Domain.isTrue (domain : Domain) : Bool := domain.constant && domain.holds

def Domain.isFalse (domain : Domain) : Bool := domain.constant && !domain.holds

/-- The calls of `DisjointExpr::add`. Equal data of several edges are not put together here: they
have the same entries. -/
def addAll (vals : List (Domain × VarArgsData K)) : List (Domain × VarArgsData K) :=
  vals.foldl (fun kept val =>
    if val.1.isFalse then kept
    else if val.1.isTrue then [val]
    else kept ++ [val]) []

/-- The loop of `DisjointExpr::mk`. -/
def mk : Option (VarArgsData K) → List (Domain × VarArgsData K) → Option (VarArgsData K)
  | ret, [] => ret
  | ret, (domain, val) :: rest =>
    if domain.isTrue then some val
    else
      match ret with
      | none => mk (some val) rest
      | some ret => mk (some (mkIf domain.holds val ret)) rest

/-! ## Functions -/

/-- An edge from an earlier block, with the value of its condition and whether the condition of the
edge, conjoined with the path, is a constant. -/
structure Edge where
  src : Nat
  cond : Bool
  constant : Bool
  deriving DecidableEq

/-- A block with its operations on lists. -/
structure Block (K Ty : Type) where
  preds : List Edge
  instrs : List (Op K Ty)

abbrev Function (K Ty : Type) := List (Block K Ty)

namespace Function

variable (m : Model K Addr Ty V) (f : Function K Ty)

def preds (i : Nat) : List Edge := (f[i]?.map Block.preds).getD []

def instrs (i : Nat) : List (Op K Ty) := (f[i]?.map Block.instrs).getD []

/-- The blocks in the order of execution: each edge is from an earlier block, there is one edge from
a block to another one, and a block jumps to one block. -/
structure WellFormed : Prop where
  forward : ∀ i, ∀ e ∈ f.preds i, e.src < i
  single : ∀ i, ((f.preds i).map Edge.src).Nodup
  deterministic : ∀ i j, ∀ e ∈ f.preds i, ∀ e' ∈ f.preds j,
    e.src = e'.src → e.cond = true → e'.cond = true → i = j

variable [DecidableEq K] [DecidableEq Addr]

abbrev Exit (K : Type) := VarArgsData K × Bool

/-- What `startBB` joins. -/
def incoming (exits : List (Exit K)) (preds : List Edge) : List (Domain × VarArgsData K) :=
  preds.filterMap fun e => exits[e.src]?.map fun exit => (⟨e.cond && exit.2, e.constant⟩, exit.1)

/-- `State::startBB`. -/
def startBB (exits : List (Exit K)) (i : Nat) : Exit K :=
  if i = 0 then (VarArgsData.empty, true)
  else
    let vals := incoming exits (f.preds i)
    ((mk none (addAll vals)).getD VarArgsData.empty, vals.any fun val => val.1.holds)

def execInstrs (instrs : List (Op K Ty)) (data : VarArgsData K) : VarArgsData K :=
  instrs.foldl (fun data instr => (toSMT m data instr).data) data

/-- The exits of the first blocks, in the order of the blocks. -/
def exits : Nat → List (Exit K)
  | 0 => []
  | n + 1 =>
    let before := exits n
    let start := f.startBB before n
    before ++ [(execInstrs m (f.instrs n) start.1, start.2)]

def dataAt (i k : Nat) : VarArgsData K :=
  execInstrs m ((f.instrs i).take k) (f.startBB (f.exits m i) i).1

def reached (i : Nat) : Bool := (f.startBB (f.exits m i) i).2

def exitData (i : Nat) : VarArgsData K := f.dataAt m i (f.instrs i).length

def others (i src : Nat) : List (VarArgsData K) :=
  ((f.preds i).filter fun e =>
    decide (e.src ≠ src) && !(⟨e.cond && f.reached m e.src, e.constant⟩ : Domain).isFalse).map
      fun e => f.exitData m e.src

end Function

/-! ## The condition on joins -/

def Stray (taken : VarArgsData K) (others : List (VarArgsData K)) (k : K) (e : Entry) : Prop :=
  taken.entry k = none ∧ others.findSome? (fun data => data.entry k) = some e

/-- A pointer value with entries on the path has no active one from elsewhere; for another pointer
value from elsewhere there is no list, and one active entry. -/
structure JoinMeets (m : Model K Addr Ty V) (taken : VarArgsData K)
    (others : List (VarArgsData K)) (lists : Lists Addr) : Prop where
  touched : ∀ k e, Stray taken others k e → Touched m taken (m.val k) → e.active = false
  fresh : ∀ k e, Stray taken others k e → ¬ Touched m taken (m.val k) →
    lists (m.val k) = none ∧ ∃ k₀ e₀, Stray taken others k₀ e₀ ∧ m.val k₀ = m.val k ∧
      e₀.active = true ∧ ∀ k' e', Stray taken others k' e' → m.val k' = m.val k →
        e'.active = true → k' = k₀

variable [DecidableEq K] [DecidableEq Addr]

/-- A run on a path of a function, whose joins meet a condition on the taken data, the other data
and the lists: in a block, after some instructions, with the lists. -/
inductive Run (m : Model K Addr Ty V) (f : Function K Ty)
    (meets : VarArgsData K → List (VarArgsData K) → Lists Addr → Prop) :
    Nat → Nat → Lists Addr → Prop where
  | start : Run m f meets 0 0 (Lists.initial m)
  | instr {i k lists op lists' ret} (run : Run m f meets i k lists)
      (next : (f.instrs i)[k]? = some op) (defined : exec m lists op = some (lists', ret)) :
      Run m f meets i (k + 1) lists'
  | jump {i lists j e} (run : Run m f meets i (f.instrs i).length lists) (edge : e ∈ f.preds j)
      (src : e.src = i) (cond : e.cond = true)
      (meet : e.constant = false → meets (f.exitData m i) (f.others m j i) lists) :
      Run m f meets j 0 lists

/-! ## What a join gives -/

def Joined (taken : VarArgsData K) (others : List (VarArgsData K)) (result : VarArgsData K) :
    Prop :=
  (∀ k e, taken.entry k = some e → result.entry k = some e) ∧
    ∀ k, taken.entry k = none → result.entry k =
      (others.findSome? fun data => data.entry k).map fun e => { e with alive := false }

section

omit [DecidableEq K]

variable {m : Model K Addr Ty V} {taken result : VarArgsData K} {others : List (VarArgsData K)}
  {lists : Lists Addr}

omit [DecidableEq Addr]

theorem Joined.entry_iff (joined : Joined taken others result) (k : K) (e : Entry) :
    result.entry k = some e ↔ taken.entry k = some e ∨
      ∃ e₀, Stray taken others k e₀ ∧ { e₀ with alive := false } = e := by
  cases mine : taken.entry k with
  | some e' =>
    rw [joined.1 k e' mine]
    refine ⟨.inl, fun either => either.resolve_right ?_⟩
    rintro ⟨e₀, stray, _⟩
    cases mine.symm.trans stray.1
  | none =>
    rw [joined.2 k mine, Option.map_eq_some_iff]
    constructor
    · rintro ⟨e₀, found, same⟩
      exact .inr ⟨e₀, ⟨mine, found⟩, same⟩
    · rintro (same | ⟨e₀, stray, same⟩)
      · cases same
      · exact ⟨e₀, stray.2, same⟩

theorem Joined.matches_iff (joined : Joined taken others result) (h : Matches m taken lists) :
    Matches m result lists ↔ JoinMeets m taken others lists := by
  have mine : ∀ {k e}, taken.entry k = some e → result.entry k = some e := fun entry =>
    joined.1 _ _ entry
  have strays : ∀ {k e}, Stray taken others k e →
      result.entry k = some { e with alive := false } := fun stray =>
    (joined.entry_iff _ _).2 (.inr ⟨_, stray, rfl⟩)
  constructor
  · intro after
    constructor
    · intro k e stray touched
      obtain ⟨k₁, e₁, owner, _⟩ := h.touched _ touched
      obtain ⟨k₂, e₂, owner₂, _⟩ := after.touched _ ⟨k₁, e₁, mine owner.entry, owner.val⟩
      have here : k₁ = k₂ := owner₂.only k₁ e₁ (mine owner.entry) owner.val owner.active
      rw [Bool.eq_false_iff]
      intro active
      have same : k = k₁ := (owner₂.only k _ (strays stray) rfl active).trans here.symm
      rw [same] at stray
      cases stray.1.symm.trans owner.entry
    · intro k e stray untouched
      obtain ⟨k₂, e₂, owner, agrees⟩ := after.touched _ ⟨k, _, strays stray, rfl⟩
      obtain ⟨e₀, stray₀, rfl⟩ := ((joined.entry_iff k₂ e₂).1 owner.entry).resolve_left
        fun entry => untouched ⟨k₂, e₂, entry, owner.val⟩
      constructor
      · rw [← Option.isNone_iff_eq_none, ← Option.not_isSome, ← agrees.alive]
        rfl
      · exact ⟨k₂, e₀, stray₀, owner.val, owner.active, fun k' e' stray' val active =>
          owner.only k' _ (strays stray') val active⟩
  · intro meets
    constructor
    · intro a touched
      by_cases before : Touched m taken a
      · obtain ⟨k, e, owner, agrees⟩ := h.touched a before
        refine ⟨k, e, ⟨mine owner.entry, owner.val, owner.active, ?_⟩, agrees⟩
        intro k' e' entry val active
        rcases (joined.entry_iff k' e').1 entry with entry | ⟨e₀, stray, rfl⟩
        · exact owner.only k' e' entry val active
        · have inactive := meets.touched k' e₀ stray (val ▸ before)
          exact absurd (inactive.symm.trans active) Bool.false_ne_true
      · obtain ⟨k, e, entry, val⟩ := touched
        obtain ⟨e₀, stray, -⟩ := ((joined.entry_iff k e).1 entry).resolve_left
          fun entry => before ⟨k, e, entry, val⟩
        subst val
        obtain ⟨ended, k₁, e₁, stray₁, val₁, active₁, only⟩ := meets.fresh k e₀ stray before
        refine ⟨k₁, _, ⟨strays stray₁, val₁, active₁, ?_⟩, ?_⟩
        · intro k' e' entry' val' active'
          obtain ⟨e₂, stray', rfl⟩ := ((joined.entry_iff k' e').1 entry').resolve_left
            fun entry => before ⟨k', e', entry, val'⟩
          exact only k' e₂ stray' val' active'
        · rw [ended]
          refine ⟨rfl, fun list some => ?_⟩
          cases some
    · intro a untouched
      exact h.untouched a fun ⟨k, e, entry, val⟩ => untouched ⟨k, e, mine entry, val⟩

theorem JoinMeets.of_keys
    (keys : ∀ k, taken.entry k = none → ∀ data ∈ others, data.entry k = none) :
    JoinMeets m taken others lists := by
  have none : ∀ {k e}, ¬ Stray taken others k e := by
    intro k e stray
    have absent : (others.findSome? fun data => data.entry k) = none :=
      List.findSome?_eq_none_iff.2 (keys k stray.1)
    cases absent.symm.trans stray.2
  exact ⟨fun _ _ stray => absurd stray none, fun _ _ stray => absurd stray none⟩

end

section

variable {vals pre post : List (Domain × VarArgsData K)} {val : Domain × VarArgsData K}

omit [DecidableEq K] [DecidableEq Addr]

theorem Domain.isTrue_of_not_holds {domain : Domain} (not : domain.holds = false) :
    domain.isTrue = false := by
  unfold Domain.isTrue
  rw [not, Bool.and_false]

theorem addAll_fold (symbolic : ∀ val ∈ vals, val.1.isTrue = false)
    (kept : List (Domain × VarArgsData K)) :
    vals.foldl (fun kept val =>
      if val.1.isFalse then kept
      else if val.1.isTrue then [val]
      else kept ++ [val]) kept = kept ++ vals.filter fun val => !val.1.isFalse := by
  induction vals generalizing kept with
  | nil => rw [List.filter_nil, List.append_nil]; rfl
  | cons first rest ih =>
    have later := ih fun val member => symbolic val (List.mem_cons_of_mem first member)
    rw [List.foldl_cons, later, symbolic first List.mem_cons_self, List.filter_cons]
    cases first.1.isFalse with
    | true => simp
    | false => simp

theorem addAll_symbolic (symbolic : ∀ val ∈ vals, val.1.isTrue = false) :
    addAll vals = vals.filter fun val => !val.1.isFalse := by
  unfold addAll
  rw [addAll_fold symbolic, List.nil_append]

theorem addAll_constant (isTrue : val.1.isTrue = true)
    (before : ∀ val ∈ pre, val.1.isTrue = false) (after : ∀ val ∈ post, val.1.isTrue = false) :
    addAll (pre ++ val :: post) = val :: post.filter fun val => !val.1.isFalse := by
  have notFalse : val.1.isFalse = false := by
    unfold Domain.isTrue at isTrue
    unfold Domain.isFalse
    rw [(Bool.and_eq_true_iff.1 isTrue).2, Bool.not_true, Bool.and_false]
  unfold addAll
  rw [List.foldl_append, addAll_fold before, List.foldl_cons, notFalse, isTrue, addAll_fold after]
  rfl

theorem mk_others (none : ∀ val ∈ vals, val.1.holds = false) (ret : VarArgsData K) :
    ∃ data, mk (some ret) vals = some data ∧ ∀ k, data.entry k =
      (ret.entry k).or ((vals.findSome? fun val => val.2.entry k).map fun e =>
        { e with alive := false }) := by
  induction vals generalizing ret with
  | nil => exact ⟨ret, rfl, fun k => by rw [List.findSome?_nil, Option.map_none, Option.or_none]⟩
  | cons first rest ih =>
    have off := none first List.mem_cons_self
    obtain ⟨data, result, entries⟩ := ih
      (fun val member => none val (List.mem_cons_of_mem first member))
      (mkIf first.1.holds first.2 ret)
    refine ⟨data, ?_, fun k => ?_⟩
    · rw [mk.eq_def]
      dsimp only
      rw [Domain.isTrue_of_not_holds off, if_neg Bool.false_ne_true]
      exact result
    · rw [entries, off, List.findSome?_cons]
      unfold mkIf
      dsimp only
      cases ret.entry k <;> cases first.2.entry k <;> simp

theorem mk_append (symbolic : ∀ val ∈ pre, val.1.isTrue = false) (ret : Option (VarArgsData K)) :
    mk ret (pre ++ post) = mk (mk ret pre) post := by
  induction pre generalizing ret with
  | nil => rw [List.nil_append, mk]
  | cons first rest ih =>
    have later := ih fun val member => symbolic val (List.mem_cons_of_mem first member)
    have here := symbolic first List.mem_cons_self
    rw [List.cons_append, mk.eq_def, mk.eq_def ret (first :: rest)]
    dsimp only
    rw [here, if_neg Bool.false_ne_true, if_neg Bool.false_ne_true]
    cases ret with
    | none => exact later _
    | some ret => exact later _

theorem mk_taken (holds : val.1.holds = true) (symbolic : val.1.isTrue = false)
    (before : ∀ val ∈ pre, val.1.holds = false) (after : ∀ val ∈ post, val.1.holds = false) :
    ∃ data, mk none (pre ++ val :: post) = some data ∧
      Joined val.2 ((pre ++ post).map Prod.snd) data := by
  cases pre with
  | nil =>
    obtain ⟨data, result, entries⟩ := mk_others after val.2
    refine ⟨data, ?_, fun k e mine => ?_, fun k other => ?_⟩
    · rw [List.nil_append, mk.eq_def]
      dsimp only
      rw [symbolic, if_neg Bool.false_ne_true]
      exact result
    · rw [entries, mine, Option.some_or]
    · rw [entries, other, Option.none_or, List.nil_append, List.findSome?_map]
      rfl
  | cons first rest =>
    have rests : ∀ val ∈ rest, val.1.holds = false := fun val member =>
      before val (List.mem_cons_of_mem first member)
    obtain ⟨start, started, starts⟩ := mk_others rests first.2
    obtain ⟨data, result, entries⟩ := mk_others after (mkIf true val.2 start)
    have begun : mk none (first :: rest) = some start := by
      rw [mk.eq_def]
      dsimp only
      rw [Domain.isTrue_of_not_holds (before first List.mem_cons_self), if_neg Bool.false_ne_true]
      exact started
    refine ⟨data, ?_, fun k e mine => ?_, fun k other => ?_⟩
    · rw [mk_append fun val member => Domain.isTrue_of_not_holds (before val member), begun,
        mk.eq_def]
      dsimp only
      rw [symbolic, if_neg Bool.false_ne_true, holds]
      exact result
    · rw [entries]
      unfold mkIf
      dsimp only
      rw [mine]
      cases start.entry k <;> rfl
    · rw [entries]
      unfold mkIf
      dsimp only
      rw [other, starts, List.findSome?_map, List.cons_append, List.findSome?_cons,
        List.findSome?_append]
      have own : (fun data : VarArgsData K => data.entry k) ∘ Prod.snd =
          fun val : Domain × VarArgsData K => val.2.entry k := rfl
      rw [own]
      generalize (rest.findSome? fun val => val.2.entry k) = inRest
      generalize (post.findSome? fun val => val.2.entry k) = inPost
      dsimp only [Function.comp]
      cases first.2.entry k <;> cases inRest <;> cases inPost <;> rfl

end

namespace Function

variable {m : Model K Addr Ty V} {f : Function K Ty} {i j k : Nat}

theorem length_exits (n : Nat) : (f.exits m n).length = n := by
  induction n with
  | zero => rfl
  | succ n ih => rw [exits, List.length_append, ih, List.length_singleton]

theorem exits_of_lt {n : Nat} (below : i < n) :
    (f.exits m n)[i]? = some (f.exitData m i, f.reached m i) := by
  induction n with
  | zero => exact absurd below (Nat.not_lt_zero i)
  | succ n ih =>
    rw [exits]
    rcases Nat.lt_succ_iff_lt_or_eq.1 below with earlier | rfl
    · rw [List.getElem?_append_left (by rw [length_exits]; exact earlier)]
      exact ih earlier
    · rw [List.getElem?_append_right (by rw [length_exits]), length_exits, Nat.sub_self]
      unfold exitData dataAt reached
      rw [List.take_length]
      rfl

def edgeVal (m : Model K Addr Ty V) (f : Function K Ty) (e : Edge) : Domain × VarArgsData K :=
  (⟨e.cond && f.reached m e.src, e.constant⟩, f.exitData m e.src)

variable (wf : f.WellFormed)

include wf

theorem incoming_eq (i : Nat) :
    incoming (f.exits m i) (f.preds i) = (f.preds i).map (edgeVal m f) := by
  unfold incoming
  rw [← List.filterMap_eq_map]
  refine List.filterMap_congr fun e member => ?_
  rw [exits_of_lt (wf.forward i e member)]
  rfl

theorem reached_iff (positive : i ≠ 0) :
    f.reached m i = true ↔ ∃ e ∈ f.preds i, e.cond = true ∧ f.reached m e.src = true := by
  unfold reached startBB
  rw [if_neg positive]
  dsimp only
  rw [incoming_eq wf, List.any_map, List.any_eq_true]
  exact exists_congr fun e => and_congr_right fun _ => Bool.and_eq_true_iff

theorem exists_edge_le (later : f.reached m j = true) (here : f.reached m i = true)
    (below : i < j) : ∃ t ≤ j, ∃ e ∈ f.preds t, e.src = i ∧ e.cond = true := by
  induction j using Nat.strongRecOn generalizing i with
  | ind j ih =>
    obtain ⟨e, edge, cond, before⟩ := (reached_iff wf (Nat.ne_zero_of_lt below)).1 later
    have back := wf.forward j e edge
    rcases Nat.lt_trichotomy e.src i with less | same | more
    · obtain ⟨t, bound, e', edge', src, cond'⟩ := ih i below here before less
      have target := wf.deterministic t j e' edge' e edge src cond' cond
      omega
    · exact ⟨j, Nat.le_refl j, e, edge, same, cond⟩
    · obtain ⟨t, bound, rest⟩ := ih e.src back before here more
      exact ⟨t, by omega, rest⟩

theorem src_eq_of_taken {e e' : Edge} (edge : e ∈ f.preds j)
    (edge' : e' ∈ f.preds j) (cond : e.cond = true) (cond' : e'.cond = true)
    (before : f.reached m e.src = true) (before' : f.reached m e'.src = true) : e.src = e'.src := by
  have order : ∀ {e e' : Edge}, e ∈ f.preds j → e' ∈ f.preds j → e.cond = true →
      f.reached m e.src = true → f.reached m e'.src = true → ¬ e.src < e'.src := by
    intro e e' edge edge' cond before before' less
    obtain ⟨t, bound, e₁, edge₁, src, cond₁⟩ := exists_edge_le wf before' before less
    have target := wf.deterministic t j e₁ edge₁ e edge src cond₁ cond
    have back := wf.forward j e' edge'
    omega
  exact Nat.le_antisymm (Nat.not_lt.1 (order edge' edge cond' before' before))
    (Nat.not_lt.1 (order edge edge' cond before before'))

theorem startBB_taken {e : Edge} (edge : e ∈ f.preds j)
    (cond : e.cond = true) (before : f.reached m e.src = true) :
    f.reached m j = true ∧ (e.constant = true → f.dataAt m j 0 = f.exitData m e.src) ∧
      (e.constant = false → Joined (f.exitData m e.src) (f.others m j e.src) (f.dataAt m j 0)) := by
  have positive : j ≠ 0 := Nat.ne_zero_of_lt (wf.forward j e edge)
  have start : f.dataAt m j 0 =
      (mk none (addAll ((f.preds j).map (edgeVal m f)))).getD VarArgsData.empty := by
    rw [← incoming_eq wf]
    unfold dataAt startBB
    rw [if_neg positive]
    rfl
  obtain ⟨pre, post, split⟩ := List.append_of_mem edge
  have single := wf.single j
  rw [split, List.map_append, List.map_cons, List.nodup_middle, List.nodup_cons] at single
  have apart : ∀ e' ∈ pre ++ post, e'.src ≠ e.src := fun e' member same =>
    single.1 (by rw [← List.map_append, ← same]; exact List.mem_map_of_mem member)
  have off : ∀ e' ∈ pre ++ post, (edgeVal m f e').1.holds = false := by
    intro e' member
    have inside : e' ∈ f.preds j := by
      rw [split, List.mem_append, List.mem_cons]
      exact (List.mem_append.1 member).imp_right .inr
    rw [Bool.eq_false_iff]
    intro holds
    obtain ⟨cond', before'⟩ := Bool.and_eq_true_iff.1 holds
    exact apart e' member (src_eq_of_taken wf inside edge cond' cond before' before)
  have offs : ∀ part : List Edge, (∀ e' ∈ part, e' ∈ pre ++ post) →
      ∀ val ∈ part.map (edgeVal m f), val.1.holds = false := by
    intro part inside val member
    obtain ⟨e', member', rfl⟩ := List.mem_map.1 member
    exact off e' (inside e' member')
  have before' := offs pre fun _ => List.mem_append_left post
  have after := offs post fun _ => List.mem_append_right pre
  have holds : (edgeVal m f e).1.holds = true := Bool.and_eq_true_iff.2 ⟨cond, before⟩
  rw [split, List.map_append, List.map_cons] at start
  refine ⟨(reached_iff wf positive).2 ⟨e, edge, cond, before⟩, fun constant => ?_,
    fun symbolic => ?_⟩
  · have isTrue : (edgeVal m f e).1.isTrue = true := Bool.and_eq_true_iff.2 ⟨constant, holds⟩
    rw [start, addAll_constant isTrue
      (fun val member => Domain.isTrue_of_not_holds (before' val member))
      (fun val member => Domain.isTrue_of_not_holds (after val member)), mk.eq_def]
    dsimp only
    rw [isTrue, if_pos rfl]
    rfl
  · have notTrue : (edgeVal m f e).1.isTrue = false := Bool.and_eq_false_iff.2 (.inl symbolic)
    have notFalse : (edgeVal m f e).1.isFalse = false := Bool.and_eq_false_iff.2 (.inl symbolic)
    have all : ∀ val ∈ pre.map (edgeVal m f) ++ edgeVal m f e :: post.map (edgeVal m f),
        val.1.isTrue = false := by
      intro val member
      rcases List.mem_append.1 member with first | rest
      · exact Domain.isTrue_of_not_holds (before' val first)
      · rcases List.mem_cons.1 rest with rfl | last
        · exact notTrue
        · exact Domain.isTrue_of_not_holds (after val last)
    have rest : (((pre ++ post).map (edgeVal m f)).filter fun val => !val.1.isFalse).map Prod.snd =
        f.others m j e.src := by
      unfold others
      rw [split, List.filter_append, List.filter_cons, if_neg (by simp), ← List.filter_append,
        List.filter_map, List.map_map]
      congr 1
      refine List.filter_congr fun e' member => ?_
      rw [decide_eq_true (apart e' member), Bool.true_and]
      rfl
    rw [start, addAll_symbolic all, List.filter_append, List.filter_cons, notFalse]
    have before'' : ∀ val ∈ (pre.map (edgeVal m f)).filter fun val => !val.1.isFalse,
        val.1.holds = false := fun val member => before' val (List.mem_filter.1 member).1
    have after' : ∀ val ∈ (post.map (edgeVal m f)).filter fun val => !val.1.isFalse,
        val.1.holds = false := fun val member => after val (List.mem_filter.1 member).1
    obtain ⟨data, result, joined⟩ := mk_taken holds notTrue before'' after'
    rw [← List.filter_append, ← List.map_append, rest] at joined
    rw [Bool.not_false, if_pos rfl, result]
    exact joined

end Function

section

variable {m : Model K Addr Ty V} {f : Function K Ty} {i k : Nat} {lists : Lists Addr}

theorem dataAt_succ {op : Op K Ty} (next : (f.instrs i)[k]? = some op) :
    f.dataAt m i (k + 1) = (toSMT m (f.dataAt m i k) op).data := by
  unfold Function.dataAt Function.execInstrs
  rw [List.take_add_one, next, List.foldl_append]
  rfl

theorem Run.invariant (wf : f.WellFormed) (run : Run m f (JoinMeets m) i k lists) :
    f.reached m i = true ∧ Matches m (f.dataAt m i k) lists := by
  induction run with
  | start => exact ⟨rfl, Matches.empty⟩
  | instr run next defined ih =>
    rw [dataAt_succ next]
    exact ⟨ih.1, (toSMT_spec ih.2 _ defined).2.1⟩
  | @jump i lists j e run edge src cond meet ih =>
    subst src
    obtain ⟨reached, constant, symbolic⟩ := Function.startBB_taken wf edge cond ih.1
    refine ⟨reached, ?_⟩
    cases kind : e.constant with
    | true =>
      rw [constant kind]
      exact ih.2
    | false => exact ((symbolic kind).matches_iff ih.2).2 (meet kind)

/-- On a path whose joins meet the condition, after any instructions, each pointer value has one
active entry, the one of the list at this address; an operation that is defined for the lists adds
no UB, and gives the argument of the list if this one is its own. -/
theorem varArgs_run (m : Model K Addr Ty V) (f : Function K Ty) (wf : f.WellFormed)
    (run : Run m f (JoinMeets m) i k lists) :
    Matches m (f.dataAt m i k) lists ∧
      ∀ op lists' ret, (f.instrs i)[k]? = some op → exec m lists op = some (lists', ret) →
        (toSMT m (f.dataAt m i k) op).defined = true ∧
          (SourceHere m lists op → (toSMT m (f.dataAt m i k) op).ret = ret) := by
  have invariant := (run.invariant wf).2
  refine ⟨invariant, fun op lists' ret _ defined => ?_⟩
  have spec := toSMT_spec invariant op defined
  exact ⟨spec.1, spec.2.2⟩

end

namespace Fixed

/-- A list that came in at each address, with one argument. -/
def model : Model Nat Nat Unit Nat where
  val := id
  isLocal := fun _ => false
  varargAlive := fun _ => true
  varargNumArgs := fun _ => 1
  numVaArgs := 2
  vaArg := fun _ n => n
  vaArgIn := fun _ a n => a + n
  matchedIsTrue := fun keys k => decide (k ∈ keys)
  val_of_matchedIsTrue := fun _ k known => ⟨k, of_decide_eq_true known, rfl⟩
  matchedIsTrue_of_mem := fun _ _ member => decide_eq_true member

def function (first second third : List (Op Nat Unit)) (through : Bool) : Function Nat Unit :=
  [⟨[], first⟩, ⟨[⟨0, through, false⟩], second⟩, ⟨[⟨0, !through, false⟩, ⟨1, true, false⟩], third⟩]

variable {first second third : List (Op Nat Unit)} {through : Bool}

theorem edges {i : Nat} {e : Edge} (edge : e ∈ (function first second third through).preds i) :
    i = 1 ∧ e = ⟨0, through, false⟩ ∨ i = 2 ∧ e = ⟨0, !through, false⟩ ∨
      i = 2 ∧ e = ⟨1, true, false⟩ := by
  match i, edge with
  | 0, edge => exact absurd edge List.not_mem_nil
  | 1, edge => exact .inl ⟨rfl, List.mem_singleton.1 edge⟩
  | 2, edge =>
    rcases List.mem_cons.1 edge with same | last
    · exact .inr (.inl ⟨rfl, same⟩)
    · exact .inr (.inr ⟨rfl, List.mem_singleton.1 last⟩)
  | i + 3, edge => exact absurd edge List.not_mem_nil

theorem wellFormed : (function first second third through).WellFormed where
  forward := by
    intro i e edge
    rcases edges edge with ⟨rfl, rfl⟩ | ⟨rfl, rfl⟩ | ⟨rfl, rfl⟩
    · exact Nat.zero_lt_one
    · exact Nat.zero_lt_two
    · exact Nat.one_lt_two
  single := by
    intro i
    match i with
    | 0 => exact List.nodup_nil
    | 1 => exact List.nodup_singleton 0
    | 2 => exact (by decide : [0, 1].Nodup)
    | i + 3 => exact List.nodup_nil
  deterministic := by
    intro i j e edge e' edge' src cond cond'
    rcases edges edge with ⟨rfl, rfl⟩ | ⟨rfl, rfl⟩ | ⟨rfl, rfl⟩ <;>
      rcases edges edge' with ⟨rfl, rfl⟩ | ⟨rfl, rfl⟩ | ⟨rfl, rfl⟩ <;> simp_all

end Fixed

theorem varArgs_run_started :
    let f := Fixed.function [.vaStart 0] [] [.vaArg 0 ()] true
    (toSMT Fixed.model (f.dataAt Fixed.model 2 0) (.vaArg 0 ())).defined = true ∧
      (toSMT Fixed.model (f.dataAt Fixed.model 2 0) (.vaArg 0 ())).ret = some 0 := by
  intro f
  have first : (f.instrs 0)[0]? = some (.vaStart 0) := rfl
  have started : Run Fixed.model f (JoinMeets Fixed.model) 0 1
      (Function.update (Lists.initial Fixed.model) 0 (some ⟨0, 2, none⟩)) :=
    .instr .start first rfl
  have second := Run.jump started (j := 1) (e := ⟨0, true, false⟩) (by decide) rfl rfl
    fun _ => JoinMeets.of_keys fun _ _ data member => absurd member List.not_mem_nil
  have third := Run.jump second (j := 2) (e := ⟨1, true, false⟩) (by decide) rfl rfl
    fun _ => JoinMeets.of_keys fun k absent data member => by
      obtain rfl : data = f.exitData Fixed.model 0 := List.mem_singleton.1 member
      exact absent
  have run := varArgs_run Fixed.model f Fixed.wellFormed third
  have arg := run.2 (.vaArg 0 ()) _ _ rfl rfl
  refine ⟨arg.1, arg.2 fun l found a source => ?_⟩
  cases found
  cases source

/-- A list that came in is read on the branch that is not taken: after the join it counts as
ended. -/
theorem ended_by_join :
    let f := Fixed.function [] [.vaArg 0 ()] [.vaArg 0 ()] false
    f.WellFormed ∧ Run Fixed.model f (fun _ _ _ => True) 2 0 (Lists.initial Fixed.model) ∧
      (f.instrs 2)[0]? = some (.vaArg 0 ()) ∧
      (exec Fixed.model (Lists.initial Fixed.model) (.vaArg 0 ())).isSome = true ∧
      (toSMT Fixed.model (f.dataAt Fixed.model 2 0) (.vaArg 0 ())).defined = false := by
  intro f
  have run : Run Fixed.model f (fun _ _ _ => True) 0 0 (Lists.initial Fixed.model) := .start
  exact ⟨Fixed.wellFormed, .jump run (e := ⟨0, true, false⟩) (by decide) rfl rfl fun _ => trivial,
    rfl, by decide, by decide⟩

-- A copy of a list that came in at address 2 is read as the one that came in at address 1.
example :
    let copied := (toSMT Fixed.model VarArgsData.empty (.vaCopy 1 2)).data
    (exec Fixed.model (Lists.initial Fixed.model) (.vaCopy 1 2)).bind (fun after =>
        (exec Fixed.model after.1 (.vaArg 1 ())).bind Prod.snd) = some 2 ∧
      (toSMT Fixed.model copied (.vaArg 1 ())).ret = some 1 := by
  decide

end AliveNext.IR.VarArgs
