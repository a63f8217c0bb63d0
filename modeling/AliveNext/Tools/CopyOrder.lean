import AliveNext.Tools.CopyFaithful

/-!
# The order of copied instructions

Whatever the order in which the hash table of the source is traversed, copies stand once, after
their operands and before the `ret`. Their order among themselves is that of the source exactly
when each of those that the sweep makes is an operand of the next.
-/

namespace AliveNext.Tools.CopyInstr

open Lib (bind_eq_ok)

structure CopiedOnce (src tgt : State) (i : Instr) (name : String) : Prop where
  once : tgt.names.count name = 1
  values : ∀ used,
    (.instr .src used ∈ i.operands → tgt.find (.reg used) = some (.instr .tgt used)) ∧
      (.input .src used ∈ i.operands → tgt.find (.reg used) = some (.input .tgt used))
  placed : ∃ (before after : List Instr) (j ret : Instr),
    tgt.instrs = before ++ j :: (after ++ [ret]) ∧ ret.isReturn = true ∧ IsCopy src tgt i j ∧
      ∀ used, .instr .src used ∈ i.operands → ∃ k ∈ before, k.name = some used

/-- What the target takes over from the source is copied, and the order of what no instruction of
the target needs is that of the source. -/
structure Faithful (src : State) (code : Code) (tgt : State) : Prop where
  copied : ∀ i ∈ src.instrs, ∀ name, i.name = some name → name ∉ code.defined →
    CopiedOnce src tgt i name
  ordered : ∀ a b, Swept src code a → Swept src code b → [a, b].Sublist src.names →
    [a, b].Sublist tgt.names

/-- Two instructions that the sweep copies, with no other between them. -/
structure Neighbours (src : State) (code : Code) (a b : String) : Prop where
  first : Swept src code a
  second : Swept src code b
  order : [a, b].Sublist src.names
  none_between : ∀ c, Swept src code c → [a, c].Sublist src.names → ¬[c, b].Sublist src.names

def Chain (src : State) (code : Code) : Prop :=
  ∀ a b, Neighbours src code a b → Uses src b a

section

variable {p : Program} {order : List Ident} {src tgt st : State} {code : Code} {ret : Instr}
  {defined : List String} {name a b : String}

theorem names_split {before after : List Instr} {j : Instr}
    (shape : tgt.instrs = before ++ j :: after) (named : j.name = some name) :
    tgt.names = before.filterMap Instr.name ++ name :: after.filterMap Instr.name := by
  rw [State.names, shape, List.filterMap_append, List.filterMap_cons, named]

theorem Target.copiedOnce
    (target : Target src defined [ret] tgt) (source : Source src) (isReturn : ret.isReturn = true)
    {i : Instr} (member : i ∈ src.instrs) (named : i.name = some name) (free : name ∉ defined)
    (present : name ∈ tgt.names) : CopiedOnce src tgt i name := by
  obtain ⟨j, inside, named'⟩ := State.mem_names.1 present
  obtain ⟨i', member', copy, order⟩ := target.copied j inside name named' free
  have same := unique_of_name source.nodup member' (copy.name.symm.trans named') member named
  subst same
  refine ⟨List.count_eq_one_of_mem target.nodup present, ?_, ?_⟩
  · intro used
    refine ⟨fun operand => ?_, fun operand => ?_⟩
    · exact target.listed used ((order used operand).subset (by simp))
    · exact target.inputs used (source.operands i' member name named _ operand)
  · obtain ⟨body, shape, noReturn⟩ := target.body
    rw [shape, List.mem_append, List.mem_singleton] at inside
    rcases inside with inside | same
    · obtain ⟨before, after, split⟩ := List.append_of_mem inside
      have whole : tgt.instrs = before ++ j :: (after ++ [ret]) := by
        rw [shape, split, List.append_assoc, List.cons_append]
      refine ⟨before, after, j, ret, whole, isReturn, copy, ?_⟩
      intro used operand
      have names := names_split whole named'
      have front := mem_of_before (names ▸ target.nodup) (names ▸ order used operand)
      exact List.mem_filterMap.1 front
    · have notReturn := copy.notReturn
      rw [same, isReturn] at notReturn
      cases notReturn

theorem parse_eq_ok : parse p order = .ok (src, tgt) ↔ parseSource p = .ok src ∧
      ∃ st, parseTarget p src = .ok st ∧ order.foldlM (sweepStep src) st = .ok tgt := by
  rw [parse, bind_eq_ok]
  constructor
  · intro parsed
    obtain ⟨src', source, parsed⟩ := parsed
    obtain ⟨st, target, parsed⟩ := bind_eq_ok.1 parsed
    obtain ⟨tgt', sweep, done⟩ := bind_eq_ok.1 parsed
    cases done
    exact ⟨source, st, target, sweep⟩
  · intro parts
    obtain ⟨source, st, target, sweep⟩ := parts
    exact ⟨src, source, bind_eq_ok.2 ⟨st, target, bind_eq_ok.2 ⟨tgt, sweep, rfl⟩⟩⟩

theorem Given.swept_iff (given : Given src code st) :
    Swept src code name ↔ name ∈ src.names ∧ name ∉ st.names := by
  constructor
  · intro swept
    refine ⟨swept.1, ?_⟩
    intro member
    rcases given.explained name member with assigned | needed
    · exact swept.2.1 assigned
    · exact swept.2.2 needed
  · intro late
    exact ⟨late.1, fun assigned => late.2 (given.assigned name assigned),
      fun needed => late.2 (given.needed name late.1 needed)⟩

theorem Target.ordered
    (target : Target src code.defined [ret] tgt) (source : Source src) (chain : Chain src code)
    (all : ∀ name ∈ src.names, name ∈ tgt.names) (first : Swept src code a)
    (second : Swept src code b) (order : [a, b].Sublist src.names) : [a, b].Sublist tgt.names := by
  -- by induction on the distance of the two in the source
  generalize distance : src.names.idxOf b - src.names.idxOf a = n
  induction n using Nat.strong_induction_on generalizing a b with
  | _ n ih =>
    by_cases next : ∀ c, Swept src code c → [a, c].Sublist src.names → ¬[c, b].Sublist src.names
    · have uses := chain a b ⟨first, second, order, next⟩
      exact target.used_mem source (all b second.1) second.2.1 uses
    · push Not at next
      obtain ⟨c, between, before, after⟩ := next
      have lower := idxOf_lt source.nodup before
      have upper := idxOf_lt source.nodup after
      have left := ih _ (by omega) first between before rfl
      have right := ih _ (by omega) between second after rfl
      exact before_trans target.nodup left right

theorem Fresh.eq_or_before {st' : State} (source : Source src)
    (fresh : Fresh src (· = b) st st' name) : name = b ∨ [name, b].Sublist src.names := by
  induction fresh with
  | root asked _ _ => exact .inl asked
  | operand _ uses _ _ ih =>
    right
    rcases ih with rfl | before
    · exact uses.before source
    · exact before_trans source.nodup (uses.before source) before

theorem Neighbours.not_fresh {st' : State} (neighbours : Neighbours src code a b)
    (source : Source src) (given : Given src code st) (independent : ¬Uses src b a)
    (fresh : Fresh src (· = b) st st' a) : False := by
  cases fresh with
  | root asked _ _ => exact before_irrefl source.nodup (asked ▸ neighbours.order)
  | operand user uses _ _ =>
    rcases user.eq_or_before source with rfl | before
    · exact independent uses
    · have swept := given.swept_iff.2 ⟨before.subset (by simp), user.absent⟩
      exact neighbours.none_between _ swept (uses.before source) before

def keys (src : State) : List Ident := src.identifiers.map Prod.fst

theorem mem_keys_iff {id : Ident} : id ∈ keys src ↔ (src.find id).isSome = true := by
  rw [State.find, List.lookup_isSome_iff, keys, List.mem_map]
  exact exists_congr fun entry => and_congr_right fun _ => by rw [beq_iff_eq, eq_comm]

theorem sweep_all
    (source : Source src) (target : Target src defined [ret] tgt) (permutes : order.Perm (keys src))
    (found : ∀ id ∈ order, (tgt.find id).isSome = true) : ∀ name ∈ src.names, name ∈ tgt.names := by
  intro name instr
  have key : .reg name ∈ keys src := by
    rw [mem_keys_iff, source.listed name instr]
    rfl
  exact (target.name_mem source instr (found _ (permutes.symm.subset key))).1

theorem Given.sweep (given : Given src code st) (source : Source src)
    (copyable : AllCopyable src code.defined) (permutes : order.Perm (keys src)) :
    ∃ (ret : Instr) (tgt : State), order.foldlM (sweepStep src) st = .ok tgt ∧
      ret.isReturn = true ∧ Target src code.defined [ret] tgt ∧
      ∀ name ∈ src.names, name ∈ tgt.names := by
  obtain ⟨ret, isReturn, target⟩ := given.target
  obtain ⟨tgt, done⟩ := sweep_returns source copyable target given.assigned
    (fun id member => mem_keys_iff.1 (permutes.subset member))
  obtain ⟨target', -, found⟩ := sweep_rule source target done
  exact ⟨ret, tgt, done, isReturn, target', sweep_all source target' permutes found⟩

theorem Target.faithful (target : Target src code.defined [ret] tgt) (source : Source src)
    (isReturn : ret.isReturn = true) (chain : Chain src code)
    (all : ∀ name ∈ src.names, name ∈ tgt.names) : Faithful src code tgt := by
  constructor
  · intro i member name named free
    exact target.copiedOnce source isReturn member named free
      (all name (State.mem_names.2 ⟨i, member, named⟩))
  · exact fun a b first second order => target.ordered source chain all first second order

theorem Neighbours.reversed
    (neighbours : Neighbours src code a b) (given : Given src code st) (source : Source src)
    (independent : ¬Uses src b a) {rest : List Ident}
    (sweep : (.reg b :: rest).foldlM (sweepStep src) st = .ok tgt)
    (present : a ∈ tgt.names) : [b, a].Sublist tgt.names := by
  obtain ⟨ret, isReturn, target⟩ := given.target
  obtain ⟨st₁, first, others⟩ := Lib.foldlM_cons_eq_ok.1 sweep
  obtain ⟨⟨v, st₂⟩, copied, done⟩ := bind_eq_ok.1 first
  cases done
  obtain ⟨target₁, grows, known⟩ :=
    getOrCopyInstr_rule source (copyFuel src) b st v st₁ target copied
  have front : b ∈ st₁.names :=
    (target₁.name_mem source neighbours.second.1 (Option.isSome_iff_exists.2 ⟨v, known⟩)).1
  have notYet : a ∉ st₁.names := by
    intro member
    have late := (given.swept_iff.1 neighbours.first).2
    exact neighbours.not_fresh source given independent (grows.fresh a member late)
  obtain ⟨-, extended, -⟩ := sweep_rule source target₁ others
  obtain ⟨more, shape⟩ := extended.names
  rw [← shape, List.mem_append] at present
  rw [← shape]
  exact (List.singleton_sublist.2 front).append
    (List.singleton_sublist.2 (present.resolve_left notYet))

end

/-- For a transformation that is accepted, the copies are faithful whatever the order of the hash
table if and only if those that the sweep makes form a chain. -/
theorem copies_faithful_iff
    {p : Program} {order : List Ident} {src tgt : State} (accepted : parse p order = .ok (src, tgt))
    (permutes : order.Perm (keys src)) :
    (∀ order', order'.Perm (keys src) →
      ∃ tgt', parse p order' = .ok (src, tgt') ∧ Faithful src p.tgt tgt') ↔ Chain src p.tgt := by
  obtain ⟨parsed, st, explicit_, sweep⟩ := parse_eq_ok.1 accepted
  have source := parseSource_source parsed
  have given := parseTarget_given source explicit_
  have copyable : AllCopyable src p.tgt.defined := by
    obtain ⟨ret, isReturn, target⟩ := given.target
    obtain ⟨target', -, found⟩ := sweep_rule source target sweep
    exact target'.allCopyable source (sweep_all source target' permutes found)
  constructor
  · intro faithful a b neighbours
    by_contra independent
    have key : .reg b ∈ keys src := by
      rw [mem_keys_iff, source.listed b neighbours.second.1]
      rfl
    obtain ⟨tgt', again, copied⟩ := faithful (.reg b :: (keys src).erase (.reg b))
      (List.perm_cons_erase key).symm
    obtain ⟨-, st', same, sweep'⟩ := parse_eq_ok.1 again
    rw [explicit_] at same
    cases same
    have order := copied.ordered a b neighbours.first neighbours.second neighbours.order
    have reversed := neighbours.reversed given source independent sweep' (order.subset (by simp))
    obtain ⟨ret, isReturn, target⟩ := given.target
    obtain ⟨target', -, -⟩ := sweep_rule source target sweep'
    exact before_asymm target'.nodup order reversed
  · intro chain order' permutes'
    obtain ⟨ret, tgt', sweep', isReturn, target', all⟩ := given.sweep source copyable permutes'
    exact ⟨tgt', parse_eq_ok.2 ⟨parsed, st, explicit_, sweep'⟩,
      target'.faithful source isReturn chain all⟩

section

/-- `%a = call @f()` and `%b = call @g(...)` over `ret 0`, which the target has alone. -/
def twoCalls (args : List Term) : Program where
  pre := []
  src :=
    { stmts := [⟨some "%a", "call @f", []⟩, ⟨some "%b", "call @g", args⟩]
      ret := some (.literal (.int 0)) }
  tgt := { stmts := [], ret := some (.literal (.int 0)) }

/-- The source of `twoCalls`. -/
def callsSrc (args : List Value) : State where
  side := .src
  constants := [.literal (.int 0)]
  instrs :=
    [{ name := some "%a", op := "call @f", operands := [] },
     { name := some "%b", op := "call @g", operands := args },
     { name := none, op := "ret", operands := [.constant .src 0], isReturn := true }]
  identifiers := [(.reg "%a", .instr .src "%a"), (.reg "%b", .instr .src "%b")]

/-- The target of `twoCalls` with the two copies in this order. -/
def callsTgt (first second : Instr) (identifiers : List (Ident × Value)) : State where
  side := .tgt
  constants := [.literal (.int 0)]
  instrs := [first, second,
    { name := none, op := "ret", operands := [.constant .tgt 0], isReturn := true }]
  identifiers := identifiers

theorem parse_chained :
    parse (twoCalls [.reg "%a"]) [.reg "%a", .reg "%b"] = .ok (callsSrc [.instr .src "%a"],
      callsTgt { name := some "%a", op := "call @f", operands := [] }
        { name := some "%b", op := "call @g", operands := [.instr .tgt "%a"] }
        [(.reg "%a", .instr .tgt "%a"), (.reg "%b", .instr .tgt "%b")]) := by
  rfl

theorem parse_reversed :
    parse (twoCalls []) [.reg "%b", .reg "%a"] = .ok (callsSrc [],
      callsTgt { name := some "%b", op := "call @g", operands := [] }
        { name := some "%a", op := "call @f", operands := [] }
        [(.reg "%b", .instr .tgt "%b"), (.reg "%a", .instr .tgt "%a")]) := by
  rfl

theorem callsSrc_names (args : List Value) : (callsSrc args).names = ["%a", "%b"] := by
  rfl

theorem twoCalls_swept {args : List Term} {vals : List Value} {name : String}
    (member : name = "%a" ∨ name = "%b") : Swept (callsSrc vals) (twoCalls args).tgt name := by
  refine ⟨?_, ?_, ?_⟩
  · rw [callsSrc_names]
    rcases member with rfl | rfl <;> simp
  · exact List.not_mem_nil
  · intro needed
    induction needed with
    | read reads => cases reads
    | operand _ _ uses ih =>
      obtain ⟨i, inside, named, operand⟩ := uses
      have user : _ ∈ (callsSrc vals).names := State.mem_names.2 ⟨i, inside, named⟩
      rw [callsSrc_names] at user
      exact ih (by simpa using user)

theorem copies_faithful_iff_chained :
    Chain (callsSrc [.instr .src "%a"]) (twoCalls [.reg "%a"]).tgt ∧
      ((∀ order', order'.Perm (keys (callsSrc [.instr .src "%a"])) →
        ∃ tgt', parse (twoCalls [.reg "%a"]) order' = .ok (callsSrc [.instr .src "%a"], tgt') ∧
          Faithful (callsSrc [.instr .src "%a"]) (twoCalls [.reg "%a"]).tgt tgt') ↔
        Chain (callsSrc [.instr .src "%a"]) (twoCalls [.reg "%a"]).tgt) := by
  refine ⟨?_, copies_faithful_iff parse_chained (List.Perm.refl _)⟩
  intro a b neighbours
  have order : [a, b].Sublist ["%a", "%b"] := neighbours.order
  have same : [a, b] = ["%a", "%b"] := order.eq_of_length rfl
  cases same
  exact ⟨_, List.mem_cons_of_mem _ List.mem_cons_self, rfl, List.mem_singleton_self _⟩

/-- Two calls that do not depend on each other change places. -/
theorem independent_calls_reversed :
    ¬∀ order, order.Perm (keys (callsSrc [])) → ∀ src tgt,
      parse (twoCalls []) order = .ok (src, tgt) → Faithful src (twoCalls []).tgt tgt := by
  intro all
  have faithful := all [.reg "%b", .reg "%a"] (List.Perm.swap _ _ _) _ _ parse_reversed
  have order : ["%a", "%b"].Sublist ["%b", "%a"] :=
    faithful.ordered "%a" "%b" (twoCalls_swept (.inl rfl)) (twoCalls_swept (.inr rfl))
      (List.Sublist.refl _)
  have same : ["%a", "%b"] = ["%b", "%a"] := order.eq_of_length rfl
  exact absurd same (by decide)

end

end AliveNext.Tools.CopyInstr
