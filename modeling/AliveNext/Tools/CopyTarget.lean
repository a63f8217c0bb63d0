import AliveNext.Tools.CopyParse

/-!
# Copies on demand

`get_or_copy_instr` keeps that a copied instruction has the target's value wherever the source has
its own, and that its operands come before it. The names that a call adds are those that it gets
to through operands that the target did not have.
-/

namespace AliveNext.Tools.CopyInstr

open Lib (bind_eq_ok)

section

variable {l before after : List String} {a b c : String}

theorem before_trans (nodup : l.Nodup) (first : [a, b].Sublist l)
    (second : [b, c].Sublist l) : [a, c].Sublist l := by
  induction l with
  | nil => cases first
  | cons x rest ih =>
    obtain ⟨fresh, nodup⟩ := List.nodup_cons.1 nodup
    cases first with
    | cons _ first =>
      cases second with
      | cons _ second => exact (ih nodup first second).cons x
      | cons_cons _ _ => exact absurd (first.subset (by simp)) fresh
    | cons_cons _ first =>
      cases second with
      | cons _ second => exact .cons_cons a (List.singleton_sublist.2 (second.subset (by simp)))
      | cons_cons _ _ => exact absurd (first.subset (by simp)) fresh

theorem before_irrefl (nodup : l.Nodup) : ¬[a, a].Sublist l := by
  intro twice
  have both : [a, a].Nodup := nodup.sublist twice
  simp at both

theorem before_asymm (nodup : l.Nodup) (first : [a, b].Sublist l) : ¬[b, a].Sublist l := by
  intro second
  exact before_irrefl nodup (before_trans nodup first second)

theorem mem_of_before (nodup : (before ++ b :: after).Nodup)
    (order : [a, b].Sublist (before ++ b :: after)) : a ∈ before := by
  induction before with
  | nil =>
    rw [List.nil_append] at nodup order
    have fresh := (List.nodup_cons.1 nodup).1
    cases order with
    | cons _ order => exact absurd (order.subset (by simp)) fresh
    | cons_cons _ order => exact absurd (order.subset (by simp)) fresh
  | cons x rest ih =>
    rw [List.cons_append] at nodup order
    cases order with
    | cons _ order => exact List.mem_cons_of_mem x (ih (List.nodup_cons.1 nodup).2 order)
    | cons_cons _ _ => exact List.mem_cons_self

theorem idxOf_lt (nodup : l.Nodup) (order : [a, b].Sublist l) : l.idxOf a < l.idxOf b := by
  have memberA : a ∈ l := order.subset (by simp)
  have memberB : b ∈ l := order.subset (by simp)
  obtain ⟨before, after, rfl⟩ := List.append_of_mem memberB
  have inside := mem_of_before nodup order
  have fresh : b ∉ before := fun member =>
    (List.nodup_append.1 nodup).2.2 b member b List.mem_cons_self rfl
  rw [List.idxOf_append_of_mem inside, List.idxOf_append_of_notMem fresh]
  exact (List.idxOf_lt_length_of_mem inside).trans_le (Nat.le_add_right _ _)

end

/-! ## Copies -/

def Uses (src : State) (user used : String) : Prop :=
  ∃ i ∈ src.instrs, i.name = some user ∧ .instr .src used ∈ i.operands

variable {src st st' : State} {a b : Value}

theorem Uses.before {user used : String} (source : Source src)
    (uses : Uses src user used) : [used, user].Sublist src.names := by
  obtain ⟨i, member, named, inside⟩ := uses
  exact source.operands i member user named _ inside

/-- The value of the target for a value of the source: that of the same name, or a copy of the
constant. -/
def Counterpart (src tgt : State) : Value → Value → Prop
  | .input .src name, v => v = .input .tgt name
  | .instr .src name, v => v = .instr .tgt name
  | .constant .src k, v => ∃ (l : Literal) (j : Nat), src.constants[k]? = some (.literal l) ∧
      v = .constant .tgt j ∧ tgt.constants[j]? = some (.literal l)
  | _, _ => False

theorem Counterpart.mono (counterpart : Counterpart src st a b)
    (grows : Extends st st') : Counterpart src st' a b := by
  match a, counterpart with
  | .input .src name, same => exact same
  | .instr .src name, same => exact same
  | .constant .src k, ⟨l, j, known, same, copied⟩ =>
    exact ⟨l, j, known, same, grows.constants j _ copied⟩

theorem Counterpart.ne {tgt : State} {c d : Value} (first : Counterpart src tgt a b)
    (second : Counterpart src tgt c d) : b ≠ c := by
  have ofTgt : (∃ name, b = .input .tgt name) ∨ (∃ name, b = .instr .tgt name) ∨
      ∃ k, b = .constant .tgt k := by
    match a, first with
    | .input .src name, same => exact .inl ⟨name, same⟩
    | .instr .src name, same => exact .inr (.inl ⟨name, same⟩)
    | .constant .src k, ⟨l, j, known, same, copied⟩ => exact .inr (.inr ⟨j, same⟩)
  rintro rfl
  rcases ofTgt with ⟨name, rfl⟩ | ⟨name, rfl⟩ | ⟨k, rfl⟩ <;> exact second

structure IsCopy (src tgt : State) (i j : Instr) : Prop where
  name : j.name = i.name
  op : j.op = i.op
  notReturn : j.isReturn = false
  operands : List.Forall₂ (Counterpart src tgt) i.operands j.operands

theorem IsCopy.mono {i j : Instr} (copy : IsCopy src st i j)
    (grows : Extends st st') : IsCopy src st' i j :=
  ⟨copy.name, copy.op, copy.notReturn, copy.operands.imp fun _ _ same => same.mono grows⟩

/-- A target on the way, with the `ret` at its end if it is there already. -/
structure Target (src : State) (defined : List String) (tail : List Instr) (st : State) : Prop where
  side : st.side = .tgt
  nodup : st.names.Nodup
  inputs : ∀ name, src.find (.reg name) = some (.input .src name) →
    st.find (.reg name) = some (.input .tgt name)
  symbolic : ∀ name v, src.find (.const name) = some v → (st.find (.const name)).isSome = true
  found : ∀ name v, st.find (.reg name) = some v →
    v = .input .tgt name ∧ src.find (.reg name) = some (.input .src name) ∨
      v = .instr .tgt name ∧ name ∈ st.names
  listed : ∀ name ∈ st.names, st.find (.reg name) = some (.instr .tgt name)
  ends : tail = [] ∨ ∃ ret : Instr, tail = [ret] ∧ ret.isReturn = true ∧ ret.name = none
  body : ∃ body, st.instrs = body ++ tail ∧ ∀ i ∈ body, i.isReturn = false
  copied : ∀ j ∈ st.instrs, ∀ name, j.name = some name → name ∉ defined →
    ∃ i ∈ src.instrs, IsCopy src st i j ∧
      ∀ used, .instr .src used ∈ i.operands → [used, name].Sublist st.names

namespace Target

variable {src st st' : State} {defined : List String} {tail : List Instr}

theorem unnamed (target : Target src defined tail st) :
    ∀ r ∈ st.instrs, r.isReturn = true → r.name = none := by
  obtain ⟨body, shape, noReturn⟩ := target.body
  intro r member isReturn
  rw [shape, List.mem_append] at member
  rcases member with member | member
  · rw [noReturn r member] at isReturn
    cases isReturn
  · rcases target.ends with empty | ⟨ret, single, -, noName⟩
    · rw [empty] at member
      cases member
    · rw [single, List.mem_singleton] at member
      exact member ▸ noName

theorem addCopied_instrs
    (target : Target src defined tail st) {j : Instr} (notReturn : j.isReturn = false) :
    ∃ body, (st.addCopied j).instrs = body ++ tail ∧ ∀ i ∈ body, i.isReturn = false := by
  obtain ⟨body, shape, noReturn⟩ := target.body
  have more : ∀ i ∈ body ++ [j], i.isReturn = false := by
    rw [List.forall_mem_append, List.forall_mem_singleton]
    exact ⟨noReturn, notReturn⟩
  refine ⟨body ++ [j], ?_, more⟩
  unfold State.addCopied
  rcases target.ends with rfl | ⟨ret, rfl, isReturn, -⟩
  · rw [List.append_nil] at shape
    split
    · next last known =>
      rw [shape] at known
      rw [if_neg (by rw [noReturn last (List.mem_of_getLast? known)]; exact Bool.false_ne_true)]
      rw [State.addInstr, shape, List.append_nil]
    · rw [State.addInstr, shape, List.append_nil]
  · have known : st.instrs.getLast? = some ret := by rw [shape, List.getLast?_concat]
    rw [known]
    dsimp only
    rw [if_pos isReturn, shape, List.dropLast_concat, List.append_assoc, List.singleton_append]

theorem name_mem (target : Target src defined tail st) (source : Source src) {name : String}
    (instr : name ∈ src.names) (known : (st.find (.reg name)).isSome = true) :
    name ∈ st.names ∧ st.find (.reg name) = some (.instr .tgt name) := by
  obtain ⟨v, known⟩ := Option.isSome_iff_exists.1 known
  rcases target.found name v known with ⟨-, input⟩ | ⟨shape, member⟩
  · rw [source.listed name instr] at input
    cases input
  · exact ⟨member, shape ▸ known⟩

end Target

/-! ## The names that a call adds -/

inductive Fresh (src : State) (roots : String → Prop) (st st' : State) : String → Prop where
  | root {name : String} (asked : roots name)
    (absent : name ∉ st.names) (added : name ∈ st'.names) : Fresh src roots st st' name
  | operand {user used : String} (fresh : Fresh src roots st st' user) (uses : Uses src user used)
    (absent : used ∉ st.names) (added : used ∈ st'.names) : Fresh src roots st st' used

structure Grows (src : State) (roots : String → Prop) (st st' : State) : Prop where
  grows : Extends st st'
  fresh : ∀ name ∈ st'.names, name ∉ st.names → Fresh src roots st st' name

section

variable {src a b c d : State} {roots more : String → Prop} {name : String}

theorem Fresh.absent (fresh : Fresh src roots a b name) : name ∉ a.names := by
  cases fresh <;> assumption

theorem Fresh.mono (fresh : Fresh src roots b c name) (first : Extends a b)
    (last : Extends c d) : Fresh src roots a d name := by
  induction fresh with
  | root asked absent added =>
    exact .root asked (fun member => absent (first.names.subset member)) (last.names.subset added)
  | operand _ uses absent added ih =>
    exact .operand ih uses (fun member => absent (first.names.subset member))
      (last.names.subset added)

theorem Fresh.widen (fresh : Fresh src roots a b name)
    (wider : ∀ root, roots root → more root) : Fresh src more a b name := by
  induction fresh with
  | root asked absent added => exact .root (wider _ asked) absent added
  | operand _ uses absent added ih => exact .operand ih uses absent added

namespace Grows

theorem refl (st : State) : Grows src roots st st :=
  ⟨.refl st, fun _ member absent => absurd member absent⟩

theorem trans
    (first : Grows src roots a b) (second : Grows src roots b c) : Grows src roots a c := by
  refine ⟨first.grows.trans second.grows, ?_⟩
  intro name member absent
  by_cases between : name ∈ b.names
  · exact (first.fresh name between absent).mono (.refl a) second.grows
  · exact (second.fresh name member between).mono first.grows (.refl c)

theorem widen
    (grows : Grows src roots a b) (wider : ∀ root, roots root → more root) : Grows src more a b :=
  ⟨grows.grows, fun name member absent => (grows.fresh name member absent).widen wider⟩

theorem of_names (grows : Extends a b) (same : b.names = a.names) : Grows src roots a b :=
  ⟨grows, fun _ member absent => absurd (same ▸ member) absent⟩

end Grows

theorem Fresh.before (source : Source src) {user used : String}
    (fresh : Fresh src (Uses src user) a b used) : [used, user].Sublist src.names := by
  induction fresh with
  | root uses _ _ => exact uses.before source
  | operand _ uses _ _ ih => exact before_trans source.nodup (uses.before source) ih

end

/-! ## The loop over the operands -/

def CallRule (src : State) (defined : List String) (tail : List Instr)
    (call : String → State → Except Failure (Value × State)) : Prop :=
  ∀ name st v st', Target src defined tail st → call name st = .ok (v, st') →
    Target src defined tail st' ∧ Grows src (· = name) st st' ∧ st'.find (.reg name) = some v

structure Copying (src st : State) (i : Instr) (passed : List Value) (j : Instr) : Prop where
  name : j.name = i.name
  op : j.op = i.op
  notReturn : j.isReturn = i.isReturn
  replaced : ∀ v v', (v, v') ∈ i.operands.zip j.operands →
    v ∈ passed ∧ Counterpart src st v v' ∨ v ∉ passed ∧ v' = v
  length : i.operands.length = j.operands.length

namespace Copying

variable {src st st' : State} {i j : Instr} {passed : List Value} {op v : Value}

theorem start (src st : State) (i : Instr) : Copying src st i [] i := by
  refine ⟨rfl, rfl, rfl, ?_, rfl⟩
  intro v v' pair
  rw [List.zip_eq_zipWith, List.zipWith_self, List.mem_map] at pair
  obtain ⟨x, -, same⟩ := pair
  cases same
  exact .inr ⟨List.not_mem_nil, rfl⟩

/-- `rauw` leaves the operands that were replaced before. -/
theorem rauw (copying : Copying src st i passed j) (grows : Extends st st')
    (counterpart : Counterpart src st' op v) :
    Copying src st' i (passed ++ [op]) (j.rauw op v) := by
  refine ⟨copying.name, copying.op, copying.notReturn, ?_, ?_⟩
  · intro x x' pair
    rw [Instr.rauw, List.zip_map_right, List.mem_map] at pair
    obtain ⟨⟨y, y'⟩, pair, same⟩ := pair
    obtain ⟨rfl, rfl⟩ := Prod.mk.inj same
    rcases copying.replaced y y' pair with ⟨inside, before⟩ | ⟨outside, rfl⟩
    · have kept := before.mono grows
      left
      dsimp only [Prod.map, id]
      rw [if_neg (kept.ne counterpart)]
      exact ⟨List.mem_append_left _ inside, kept⟩
    · by_cases own : y' = op
      · left
        dsimp only [Prod.map, id]
        rw [if_pos own, own]
        exact ⟨List.mem_append_right _ (List.mem_singleton_self _), counterpart⟩
      · right
        dsimp only [Prod.map, id]
        rw [if_neg own]
        exact ⟨by simp [outside, own], rfl⟩
  · rw [Instr.rauw, List.length_map]
    exact copying.length

theorem isCopy (copying : Copying src st i i.operands j)
    (notReturn : i.isReturn = false) : IsCopy src st i j := by
  refine ⟨copying.name, copying.op, copying.notReturn.trans notReturn, ?_⟩
  rw [List.forall₂_iff_zip]
  refine ⟨copying.length, ?_⟩
  intro v v' pair
  rcases copying.replaced v v' pair with ⟨-, counterpart⟩ | ⟨outside, -⟩
  · exact counterpart
  · exact absurd (List.of_mem_zip pair).1 outside

end Copying

section

variable {src st st' : State} {defined : List String} {tail : List Instr} {i j j' : Instr}
  {name : String} {op : Value} {passed : List Value}
  {call : String → State → Except Failure (Value × State)}

/-- A turn of the loop: the operand has its counterpart, and if it is an instruction the target has
it. -/
structure Turn (src : State) (defined : List String) (tail : List Instr) (name : String)
    (op : Value) (j j' : Instr) (st st' : State) : Prop where
  target : Target src defined tail st'
  grows : Grows src (Uses src name) st st'
  replaced : ∃ v, j' = j.rauw op v ∧ Counterpart src st' op v
  available : ∀ used, op = .instr .src used → used ∈ st'.names

theorem Target.addConstant (target : Target src defined tail st) (c : Constant) :
    Target src defined tail (st.addConstant c).2 :=
  { target with
    copied := fun j member name named new => by
      obtain ⟨i, inside, copy, before⟩ := target.copied j member name named new
      exact ⟨i, inside, copy.mono (.addConstant st c), before⟩ }

variable (source : Source src) (rule : CallRule src defined tail call)
    (target : Target src defined tail st)

include source rule target

theorem copyOperand_turn (uses : ∀ used, op = .instr .src used → Uses src name used)
    (operand : SrcOperand src name op) (done : copyOperand src call (j, st) op = .ok (j', st')) :
    Turn src defined tail name op j j' st st' := by
  unfold copyOperand at done
  split at done
  · next other =>
    have known := target.inputs other operand
    rw [known] at done
    cases done
    exact ⟨target, .refl st, ⟨_, rfl, rfl⟩, by simp⟩
  · next k =>
    split at done
    · next l known =>
      cases done
      refine ⟨target.addConstant _, .of_names (.addConstant _ _) rfl, ⟨_, rfl, ?_⟩, by simp⟩
      refine ⟨l, st.constants.length, known, ?_, by simp⟩
      show Value.constant st.side _ = _
      rw [target.side]
    · cases done
    · cases done
    · cases done
  · cases done
  · next used =>
    obtain ⟨⟨v, st₁⟩, called, result⟩ := bind_eq_ok.1 done
    cases result
    obtain ⟨target', grows, known⟩ := rule used st v st' target called
    have instr : used ∈ src.names := operand.subset (by simp)
    obtain ⟨member, own⟩ :=
      target'.name_mem source instr (Option.isSome_iff_exists.2 ⟨v, known⟩)
    rw [known] at own
    cases own
    refine ⟨target', grows.widen ?_, ⟨_, rfl, rfl⟩, ?_⟩
    · exact fun root same => same ▸ uses used rfl
    · intro other same
      cases same
      exact member
  · cases done

theorem copyOperands_loop {rest : List Value} (copying : Copying src st i passed j)
    (operands : ∀ op ∈ rest, SrcOperand src name op ∧
      ∀ used, op = .instr .src used → Uses src name used)
    (done : rest.foldlM (copyOperand src call) (j, st) = .ok (j', st')) :
    Target src defined tail st' ∧ Grows src (Uses src name) st st' ∧
      Copying src st' i (passed ++ rest) j' ∧
      ∀ used, .instr .src used ∈ rest → used ∈ st'.names := by
  induction rest generalizing st j passed with
  | nil =>
    cases done
    rw [List.append_nil]
    exact ⟨target, .refl _, copying, by simp⟩
  | cons op rest ih =>
    rw [List.forall_mem_cons] at operands
    obtain ⟨⟨j₁, st₁⟩, first, others⟩ := Lib.foldlM_cons_eq_ok.1 done
    have turn := copyOperand_turn source rule target operands.1.2 operands.1.1 first
    obtain ⟨v, shape, counterpart⟩ := turn.replaced
    have step := copying.rauw turn.grows.grows counterpart
    rw [← shape] at step
    obtain ⟨target', grows, copied, available⟩ :=
      ih turn.target step operands.2 others
    rw [List.append_assoc, List.singleton_append] at copied
    refine ⟨target', turn.grows.trans grows, copied, ?_⟩
    intro used inside
    rcases List.mem_cons.1 inside with same | inside
    · exact grows.grows.names.subset (turn.available used same.symm)
    · exact available used inside

end

section

variable {src st st' : State} {defined : List String} {tail : List Instr} {i j : Instr}
  {name : String}

def withCopy (st : State) (name : String) (j : Instr) : State :=
  (st.emplace (.reg name) (.instr .tgt name)).addCopied j

theorem withCopy_names (target : Target src defined tail st)
    (named : j.name = some name) : (withCopy st name j).names = st.names ++ [name] := by
  have unnamed : ∀ r ∈ (st.emplace (.reg name) (.instr .tgt name)).instrs,
      r.isReturn = true → r.name = none := target.unnamed
  rw [withCopy, State.names_addCopied unnamed, named]
  rfl

theorem withCopy_find (id : Ident) :
    (withCopy st name j).find id = (st.emplace (.reg name) (.instr .tgt name)).find id :=
  State.find_addCopied id

theorem withCopy_extends (target : Target src defined tail st)
    (named : j.name = some name) : Extends st (withCopy st name j) where
  side := State.side_addCopied
  find id v known := by
    rw [withCopy_find]
    exact (Extends.emplace st _ _).find id v known
  constants k c known := by
    rw [withCopy, State.constants_addCopied]
    exact known
  names := by
    rw [withCopy_names target named]
    exact List.prefix_append _ _

theorem Target.withCopy (target : Target src defined tail st) (member : i ∈ src.instrs)
    (named : i.name = some name) (copy : IsCopy src st i j)
    (available : ∀ used, .instr .src used ∈ i.operands → used ∈ st.names)
    (absent : st.find (.reg name) = none) : Target src defined tail (withCopy st name j) := by
  have named' : j.name = some name := copy.name.trans named
  have names := withCopy_names target named'
  have grows := withCopy_extends target named'
  have fresh : name ∉ st.names := by
    intro inside
    rw [target.listed name inside] at absent
    cases absent
  have own : (CopyInstr.withCopy st name j).find (.reg name) = some (.instr .tgt name) := by
    rw [withCopy_find, State.find_emplace_self absent]
  refine ⟨grows.side.trans target.side, ?_, ?_, ?_, ?_, ?_, target.ends, ?_, ?_⟩
  · rw [names, List.nodup_append]
    exact ⟨target.nodup, List.nodup_singleton name, fun a inside b single =>
      List.mem_singleton.1 single ▸ fun same => fresh (same ▸ inside)⟩
  · exact fun other known => grows.find _ _ (target.inputs other known)
  · exact fun other v known => grows.isSome (target.symbolic other v known)
  · intro other v known
    by_cases same : other = name
    · subst same
      rw [own] at known
      cases known
      exact .inr ⟨rfl, by simp [names]⟩
    · rw [withCopy_find, State.find_emplace_ne (by simp [same])] at known
      rcases target.found other v known with input | ⟨shape, inside⟩
      · exact .inl input
      · exact .inr ⟨shape, grows.names.subset inside⟩
  · intro other inside
    rw [names, List.mem_append, List.mem_singleton] at inside
    rcases inside with inside | rfl
    · exact grows.find _ _ (target.listed other inside)
    · exact own
  · obtain ⟨body, shape, noReturn⟩ := target.addCopied_instrs copy.notReturn
    refine ⟨body, ?_, noReturn⟩
    rw [← shape, CopyInstr.withCopy, State.instrs_addCopied_emplace]
  · intro k inside other named'' new
    rw [CopyInstr.withCopy, State.mem_addCopied] at inside
    rcases inside with rfl | inside
    · rw [named'] at named''
      cases named''
      refine ⟨i, member, copy.mono grows, ?_⟩
      intro used operand
      rw [names]
      exact (List.singleton_sublist.2 (available used operand)).append (List.Sublist.refl _)
    · obtain ⟨origin, inside, copied, before⟩ := target.copied k inside other named'' new
      exact ⟨origin, inside, copied.mono grows, fun used operand =>
        (before used operand).trans grows.names.sublist⟩

theorem Grows.withCopy
    (grows : Grows src (Uses src name) st st') (target : Target src defined tail st')
    (named : j.name = some name)
    (still : name ∉ st'.names) : Grows src (· = name) st (withCopy st' name j) := by
  have extended := withCopy_extends target named
  have names := withCopy_names target named
  have root : Fresh src (· = name) st (CopyInstr.withCopy st' name j) name := by
    refine .root rfl ?_ (by simp [names])
    exact fun inside => still (grows.grows.names.subset inside)
  have needed : ∀ used, Fresh src (Uses src name) st (CopyInstr.withCopy st' name j) used →
      Fresh src (· = name) st (CopyInstr.withCopy st' name j) used := by
    intro used fresh
    induction fresh with
    | root uses absent added => exact .operand root uses absent added
    | operand _ uses absent added ih => exact .operand ih uses absent added
  refine ⟨grows.grows.trans extended, ?_⟩
  intro other inside new
  rw [names, List.mem_append, List.mem_singleton] at inside
  rcases inside with inside | rfl
  · exact needed other ((grows.fresh other inside new).mono (.refl st) extended)
  · exact root

theorem getOrCopyInstr_rule
    (source : Source src) (fuel : Nat) : CallRule src defined tail (getOrCopyInstr src fuel) := by
  induction fuel with
  | zero =>
    intro name st v st' _ done
    cases done
  | succ fuel ih =>
    intro name st v st' target done
    rw [getOrCopyInstr] at done
    split at done
    · next x known =>
      cases done
      exact ⟨target, .refl _, known⟩
    · next absent =>
      split at done
      · cases done
      · split at done
        · cases done
        · next i chosen =>
          have named : i.name = some name := by simpa using List.find?_some chosen
          have member := List.mem_of_find?_eq_some chosen
          obtain ⟨⟨j, st₁⟩, loop, result⟩ := bind_eq_ok.1 done
          cases result
          obtain ⟨target₁, grows, copying, available⟩ :=
            copyOperands_loop source ih target (.start src st i) (fun op inside =>
              ⟨source.operands i member name named op inside, fun used same =>
                ⟨i, member, named, same ▸ inside⟩⟩) loop
          have copy := copying.isCopy (source.noReturn i member name named)
          have named' : j.name = some name := copy.name.trans named
          -- the loop needs names before this one only
          have still : name ∉ st₁.names := by
            intro inside
            have before : name ∉ st.names := by
              intro inside
              rw [target.listed name inside] at absent
              cases absent
            exact before_irrefl source.nodup ((grows.fresh name inside before).before source)
          have absent₁ : st₁.find (.reg name) = none := by
            rw [← Option.not_isSome_iff_eq_none]
            intro known
            have instr : name ∈ src.names := State.mem_names.2 ⟨i, member, named⟩
            exact still (target₁.name_mem source instr known).1
          exact ⟨target₁.withCopy member named copy available absent₁,
            grows.withCopy target₁ named' still,
            (withCopy_find _).trans (State.find_emplace_self absent₁)⟩

end

end AliveNext.Tools.CopyInstr
