import AliveNext.IR.VarArgs

/-!
# Steps on the entries

Each operation keeps the active entries equal to the lists, if it is defined for the lists.
-/

namespace AliveNext.IR.VarArgs

variable {K Addr Ty V : Type} {m : Model K Addr Ty V} {data : VarArgsData K} {lists : Lists Addr}

namespace VarArgsData

@[simp]
theorem modify_entry (f : K → Entry → Entry) (k : K) :
    (data.modify f).entry k = (data.entry k).map (f k) := rfl

theorem all_iff (p : K → Entry → Bool) :
    data.all p = true ↔ ∀ k e, data.entry k = some e → p k e = true := by
  unfold VarArgsData.all
  rw [List.all_eq_true]
  constructor
  · intro every k e found
    have member : k ∈ data.keys := (data.mem_keys k).2 (by rw [found]; rfl)
    have holds := every k member
    rwa [found] at holds
  · intro every k _
    cases found : data.entry k with
    | none => rfl
    | some e => exact every k e found

theorem mem_domains {α : Type} (select : K → Entry → Bool) (value : K → Entry → α)
    (pair : Bool × α) : pair ∈ data.domains select value ↔
      ∃ k e, data.entry k = some e ∧ (select k e, value k e) = pair := by
  unfold VarArgsData.domains
  rw [List.mem_filterMap]
  constructor
  · rintro ⟨k, _, found⟩
    obtain ⟨e, entry, same⟩ := Option.map_eq_some_iff.1 found
    exact ⟨k, e, entry, same⟩
  · rintro ⟨k, e, entry, same⟩
    exact ⟨k, (data.mem_keys k).2 (by rw [entry]; rfl), by rw [entry, Option.map_some, same]⟩

end VarArgsData

theorem Matches.empty : Matches m VarArgsData.empty (Lists.initial m) where
  touched := by
    rintro a ⟨k, e, entry, _⟩
    cases entry
  untouched := fun _ _ => rfl

theorem agrees_started (active : Bool) : Agrees ⟨true, 0, m.numVaArgs, true, active⟩
      (some (⟨0, m.numVaArgs.toNat, none⟩ : VaList Addr)) := by
  refine ⟨rfl, fun list same => ?_⟩
  cases same
  exact ⟨rfl, rfl, rfl⟩

section

variable [DecidableEq Addr]

theorem matched_iff (ptr : K) : matched m data ptr = true ↔ Touched m data (m.val ptr) := by
  unfold matched Touched
  rw [List.any_eq_true]
  constructor
  · rintro ⟨k, member, same⟩
    obtain ⟨e, entry⟩ := Option.isSome_iff_exists.1 ((data.mem_keys k).1 member)
    exact ⟨k, e, entry, beq_iff_eq.1 same⟩
  · rintro ⟨k, e, entry, same⟩
    exact ⟨k, (data.mem_keys k).2 (by rw [entry]; rfl), beq_iff_eq.2 same⟩

variable {α : Type} {a : Addr} {k : K} {e : Entry}

theorem disjoint_eq {x : α} {vals : List (Bool × α)} (member : (true, x) ∈ vals)
    (only : ∀ y, (true, y) ∈ vals → y = x) : disjoint vals = some x := by
  have fold : ∀ (rest : List (Bool × α)) (start : α), (∀ y, (true, y) ∈ rest → y = x) →
      (start = x ∨ (true, x) ∈ rest) →
      rest.foldl (fun ret val => if val.1 then val.2 else ret) start = x := by
    intro rest
    induction rest with
    | nil => exact fun start _ found => found.resolve_right List.not_mem_nil
    | cons first rest ih =>
      intro start unique found
      have later : ∀ y, (true, y) ∈ rest → y = x := fun y inside =>
        unique y (List.mem_cons_of_mem first inside)
      obtain ⟨domain, value⟩ := first
      cases domain with
      | true => exact ih value later (.inl (unique value List.mem_cons_self))
      | false =>
        refine ih start later (found.imp_right fun inside => ?_)
        exact (List.mem_cons.1 inside).resolve_left (by simp)
  cases vals with
  | nil => exact absurd member List.not_mem_nil
  | cons first rest =>
    refine congrArg some (fold rest first.2 (fun y inside =>
      only y (List.mem_cons_of_mem first inside)) ?_)
    exact (List.mem_cons.1 member).imp_left fun same => (congrArg Prod.snd same).symm

theorem Active.selected (h : Active m data a k e) {k' : K} {e' : Entry}
    (entry : data.entry k' = some e') : (e'.active && m.val k' == a) = true ↔ k' = k ∧ e' = e := by
  rw [Bool.and_eq_true, beq_iff_eq]
  constructor
  · rintro ⟨active, val⟩
    have same := h.only k' e' entry val active
    subst same
    exact ⟨rfl, Option.some.inj (entry.symm.trans h.entry)⟩
  · rintro ⟨rfl, rfl⟩
    exact ⟨h.active, h.val⟩

theorem Active.disjoint_eq (h : Active m data a k e) (value : K → Entry → α) :
    disjoint (data.domains (fun k entry => entry.active && m.val k == a) value) =
      some (value k e) := by
  refine VarArgs.disjoint_eq ?_ ?_
  · rw [VarArgsData.mem_domains]
    exact ⟨k, e, h.entry, Prod.ext ((h.selected h.entry).2 ⟨rfl, rfl⟩) rfl⟩
  · intro y member
    obtain ⟨k', e', entry, same⟩ := (VarArgsData.mem_domains _ _ _).1 member
    obtain ⟨rfl, rfl⟩ := (h.selected entry).1 (congrArg Prod.fst same)
    exact (congrArg Prod.snd same).symm

theorem Active.all_iff (h : Active m data a k e) (p : Entry → Bool) :
    data.all (fun k entry => !(entry.active && m.val k == a) || p entry) = true ↔ p e = true := by
  rw [VarArgsData.all_iff]
  constructor
  · intro every
    have holds := every k e h.entry
    rwa [(h.selected h.entry).2 ⟨rfl, rfl⟩, Bool.not_true, Bool.false_or] at holds
  · intro holds k' e' entry
    cases select : e'.active && m.val k' == a with
    | false => rfl
    | true =>
      obtain ⟨rfl, rfl⟩ := (h.selected entry).1 select
      rw [Bool.not_true, Bool.false_or, holds]

theorem Matches.modify {f : K → Entry → Entry} {l : Option (VaList Addr)}
    (h : Matches m data lists) (active : ∀ k e, (f k e).active = e.active)
    (other : ∀ k e, m.val k ≠ a → f k e = e)
    (agrees : ∀ k e, Active m data a k e → Agrees e (lists a) → Agrees (f k e) l)
    (absent : ¬ Touched m data a → l = Lists.initial m a) :
    Matches m (data.modify f) (Function.update lists a l) := by
  have touches : ∀ b, Touched m (data.modify f) b ↔ Touched m data b := by
    intro b
    constructor
    · rintro ⟨k, e, entry, val⟩
      obtain ⟨e', entry', _⟩ := Option.map_eq_some_iff.1 entry
      exact ⟨k, e', entry', val⟩
    · rintro ⟨k, e, entry, val⟩
      exact ⟨k, f k e, by rw [VarArgsData.modify_entry, entry, Option.map_some], val⟩
  constructor
  · intro b touched
    obtain ⟨k, e, owner, same⟩ := h.touched b ((touches b).1 touched)
    refine ⟨k, f k e, ⟨?_, owner.val, (active k e).trans owner.active, ?_⟩, ?_⟩
    · rw [VarArgsData.modify_entry, owner.entry, Option.map_some]
    · intro k' e' entry val isActive
      obtain ⟨e₀, entry₀, rfl⟩ := Option.map_eq_some_iff.1 entry
      exact owner.only k' e₀ entry₀ val ((active k' e₀).symm.trans isActive)
    · by_cases here : b = a
      · subst here
        rw [Function.update_self]
        exact agrees k e owner same
      · rw [Function.update_of_ne here, other k e (owner.val ▸ here)]
        exact same
  · intro b untouched
    have before : ¬ Touched m data b := fun touched => untouched ((touches b).2 touched)
    by_cases here : b = a
    · subst here
      rw [Function.update_self]
      exact absent before
    · rw [Function.update_of_ne here]
      exact h.untouched b before

end

section

variable [DecidableEq K]

namespace VarArgsData

@[simp]
theorem assign_self (k : K) (e : Entry) : (data.assign k e).entry k = some e := by
  unfold assign
  exact Function.update_self k (some e) data.entry

theorem assign_other {k k' : K} (e : Entry) (other : k' ≠ k) :
    (data.assign k e).entry k' = data.entry k' := by
  unfold assign
  exact Function.update_of_ne other (some e) data.entry

theorem tryEmplace_present {k : K} (e : Entry) (present : (data.entry k).isSome = true) :
    data.tryEmplace k e = data :=
  if_pos present

theorem tryEmplace_absent {k : K} (e : Entry) (absent : data.entry k = none) :
    data.tryEmplace k e = data.assign k e :=
  if_neg (by simp [absent])

end VarArgsData

variable {ptr : K} {e : Entry} {l : VaList Addr}

theorem Matches.assign_inactive (h : Matches m data lists)
    (absent : data.entry ptr = none) (old : Touched m data (m.val ptr))
    (inactive : e.active = false) : Matches m (data.assign ptr e) lists := by
  have keeps : ∀ {k e₀}, data.entry k = some e₀ → (data.assign ptr e).entry k = some e₀ := by
    intro k e₀ entry
    rw [VarArgsData.assign_other e fun same => by rw [same, absent] at entry; cases entry]
    exact entry
  constructor
  · intro a touched
    have before : Touched m data a := by
      obtain ⟨k, e₀, entry, val⟩ := touched
      by_cases same : k = ptr
      · exact val ▸ same ▸ old
      · rw [VarArgsData.assign_other e same] at entry
        exact ⟨k, e₀, entry, val⟩
    obtain ⟨k, e₀, owner, agrees⟩ := h.touched a before
    refine ⟨k, e₀, ⟨keeps owner.entry, owner.val, owner.active, ?_⟩, agrees⟩
    intro k' e' entry val active
    by_cases same : k' = ptr
    · rw [same, VarArgsData.assign_self] at entry
      cases entry
      rw [inactive] at active
      cases active
    · rw [VarArgsData.assign_other e same] at entry
      exact owner.only k' e' entry val active
  · intro a untouched
    exact h.untouched a fun ⟨k, e₀, entry, val⟩ => untouched ⟨k, e₀, keeps entry, val⟩

variable [DecidableEq Addr]

variable (h : Matches m data lists)

include h

theorem Matches.assign_new {l : Option (VaList Addr)} (new : ¬ Touched m data (m.val ptr))
    (active : e.active = true) (agrees : Agrees e l) :
    Matches m (data.assign ptr e) (Function.update lists (m.val ptr) l) := by
  constructor
  · rintro a ⟨k, e₀, entry, val⟩
    by_cases here : a = m.val ptr
    · subst here
      refine ⟨ptr, e, ⟨VarArgsData.assign_self ptr e, rfl, active, ?_⟩, ?_⟩
      · intro k' e' entry' val' _
        by_contra differ
        rw [VarArgsData.assign_other e differ] at entry'
        exact new ⟨k', e', entry', val'⟩
      · rw [Function.update_self]
        exact agrees
    · have differ : k ≠ ptr := fun same => here (val.symm.trans (congrArg m.val same))
      rw [VarArgsData.assign_other e differ] at entry
      obtain ⟨k₁, e₁, owner, same⟩ := h.touched a ⟨k, e₀, entry, val⟩
      have apart : ∀ k', m.val k' = a → k' ≠ ptr := fun k' val' same' =>
        here (val'.symm.trans (congrArg m.val same'))
      refine ⟨k₁, e₁, ⟨?_, owner.val, owner.active, ?_⟩, ?_⟩
      · rw [VarArgsData.assign_other e (apart k₁ owner.val)]
        exact owner.entry
      · intro k' e' entry' val' active'
        rw [VarArgsData.assign_other e (apart k' val')] at entry'
        exact owner.only k' e' entry' val' active'
      · rw [Function.update_of_ne here]
        exact same
  · intro a untouched
    have differ : a ≠ m.val ptr := fun same =>
      untouched ⟨ptr, e, VarArgsData.assign_self ptr e, same.symm⟩
    rw [Function.update_of_ne differ]
    refine h.untouched a fun ⟨k, e₀, entry, val⟩ => untouched ⟨k, e₀, ?_, val⟩
    rwa [VarArgsData.assign_other e fun same => differ (val.symm.trans (congrArg m.val same))]

theorem Matches.assign_over {dst : K} {l : Option (VaList Addr)}
    (active : e.active = true) (agrees : Agrees e l) :
    Matches m ((data.modify fun k entry =>
        { entry with active := entry.active && !(m.val k == m.val dst) }).assign dst e)
      (Function.update lists (m.val dst) l) := by
  generalize killed : (data.modify fun k entry =>
    { entry with active := entry.active && !(m.val k == m.val dst) }) = others
  have entries : ∀ k' e', others.entry k' = some e' → ∃ e₀, data.entry k' = some e₀ ∧
      e'.active = (e₀.active && !(m.val k' == m.val dst)) ∧
      (m.val k' ≠ m.val dst → e' = e₀) := by
    intro k' e' entry
    rw [← killed, VarArgsData.modify_entry] at entry
    obtain ⟨e₀, entry₀, rfl⟩ := Option.map_eq_some_iff.1 entry
    exact ⟨e₀, entry₀, rfl, fun other => by simp [beq_eq_false_iff_ne.2 other]⟩
  have kept : ∀ {k' e'}, m.val k' ≠ m.val dst → data.entry k' = some e' →
      (others.assign dst e).entry k' = some e' := by
    intro k' e' away entry
    rw [VarArgsData.assign_other e fun same => away (congrArg m.val same), ← killed,
      VarArgsData.modify_entry, entry]
    simp [beq_eq_false_iff_ne.2 away]
  constructor
  · rintro a ⟨k₁, e₁, entry₁, val₁⟩
    by_cases here : a = m.val dst
    · subst here
      refine ⟨dst, e, ⟨VarArgsData.assign_self dst e, rfl, active, ?_⟩, ?_⟩
      · intro k' e' entry' val' active'
        by_contra differ
        rw [VarArgsData.assign_other e differ] at entry'
        obtain ⟨e₀, _, inactive, _⟩ := entries k' e' entry'
        rw [active', val', beq_self_eq_true, Bool.not_true, Bool.and_false] at inactive
        cases inactive
      · rw [Function.update_self]
        exact agrees
    · have apart : ∀ {k'}, m.val k' = a → k' ≠ dst := fun val' same' =>
        here (val'.symm.trans (congrArg m.val same'))
      have before : Touched m data a := by
        rw [VarArgsData.assign_other e (apart val₁)] at entry₁
        obtain ⟨e₀, entry₀, _⟩ := entries k₁ e₁ entry₁
        exact ⟨k₁, e₀, entry₀, val₁⟩
      obtain ⟨k₂, e₂, owner, same⟩ := h.touched a before
      refine ⟨k₂, e₂, ⟨kept (owner.val ▸ here) owner.entry, owner.val, owner.active, ?_⟩, ?_⟩
      · intro k' e' entry' val' active'
        rw [VarArgsData.assign_other e (apart val')] at entry'
        obtain ⟨e₀, entry₀, _, unchanged⟩ := entries k' e' entry'
        rw [unchanged (val' ▸ here)] at active'
        exact owner.only k' e₀ entry₀ val' active'
      · rw [Function.update_of_ne here]
        exact same
  · intro a untouched
    have differ : a ≠ m.val dst := fun same =>
      untouched ⟨dst, e, VarArgsData.assign_self dst e, same.symm⟩
    rw [Function.update_of_ne differ]
    exact h.untouched a fun ⟨k', e', entry', val'⟩ =>
      untouched ⟨k', e', kept (val' ▸ differ) entry', val'⟩

/-- A list that is not ended has an entry after `ensure_varargs_ptr`, which adds no UB. -/
theorem ensureVarargsPtr_spec (found : lists (m.val ptr) = some l) :
    (ensureVarargsPtr m data ptr).2 = true ∧ Matches m (ensureVarargsPtr m data ptr).1 lists ∧
      Touched m (ensureVarargsPtr m data ptr).1 (m.val ptr) := by
  unfold ensureVarargsPtr
  cases known : m.matchedIsTrue data.keys ptr with
  | true =>
    obtain ⟨k, member, same⟩ := m.val_of_matchedIsTrue _ _ known
    obtain ⟨e, entry⟩ := Option.isSome_iff_exists.1 ((data.mem_keys k).1 member)
    exact ⟨rfl, h, k, e, entry, same⟩
  | false =>
    have absent : data.entry ptr = none := by
      rw [Option.eq_none_iff_forall_not_mem]
      intro e entry
      have member : ptr ∈ data.keys := (data.mem_keys ptr).2 (by rw [entry]; rfl)
      rw [m.matchedIsTrue_of_mem _ _ member] at known
      cases known
    rw [if_neg (by decide)]
    dsimp only
    rw [VarArgsData.tryEmplace_absent _ absent]
    have present : ∀ e, Touched m (data.assign ptr e) (m.val ptr) := fun e =>
      ⟨ptr, e, VarArgsData.assign_self ptr e, rfl⟩
    cases known' : matched m data ptr with
    | true => exact ⟨rfl, h.assign_inactive absent ((matched_iff ptr).1 known') rfl, present _⟩
    | false =>
      have new : ¬ Touched m data (m.val ptr) := fun touched => by
        rw [(matched_iff ptr).2 touched] at known'
        cases known'
      have came := h.untouched _ new
      rw [found] at came
      unfold Lists.initial at came
      cases isLocal : m.isLocal (m.val ptr) with
      | true => rw [isLocal] at came; cases came
      | false =>
        rw [isLocal, if_neg (by decide)] at came
        cases alive : m.varargAlive (m.val ptr) with
        | false => rw [alive] at came; cases came
        | true =>
          rw [alive, if_pos rfl] at came
          cases came
          refine ⟨rfl, ?_, present _⟩
          rw [← Function.update_eq_self (m.val ptr) lists, found]
          refine h.assign_new new rfl ⟨rfl, fun list same => ?_⟩
          cases same
          exact ⟨rfl, rfl, rfl⟩

theorem vaStart_matches (ptr : K) : Matches m (vaStart m data ptr).data
      (Function.update lists (m.val ptr) (some ⟨0, m.numVaArgs.toNat, none⟩)) := by
  have active : ∀ k e, (startEntry m ptr k e).active = e.active := fun _ _ => rfl
  have other : ∀ k e, m.val k ≠ m.val ptr → startEntry m ptr k e = e := by
    intro k e differ
    simp [startEntry, beq_eq_false_iff_ne.2 differ]
  have emplaced : ∀ {k}, data.entry k = none → (data.modify (startEntry m ptr)).entry k = none :=
    fun absent => by rw [VarArgsData.modify_entry, absent, Option.map_none]
  unfold vaStart
  dsimp only
  by_cases touched : Touched m data (m.val ptr)
  · rw [(matched_iff ptr).2 touched]
    have started := h.modify (l := some ⟨0, m.numVaArgs.toNat, none⟩) active other
      (fun k e owner _ => by
        have here : startEntry m ptr k e = ⟨true, 0, m.numVaArgs, true, e.active⟩ := by
          simp [startEntry, owner.val]
        rw [here]
        exact agrees_started e.active)
      (fun untouched => absurd touched untouched)
    cases present : data.entry ptr with
    | none =>
      rw [VarArgsData.tryEmplace_absent _ (emplaced present)]
      refine started.assign_inactive (emplaced present) ?_ rfl
      obtain ⟨k, e, entry, val⟩ := touched
      exact ⟨k, _, by rw [VarArgsData.modify_entry, entry]; rfl, val⟩
    | some e =>
      rw [VarArgsData.tryEmplace_present _ (by rw [VarArgsData.modify_entry, present]; rfl)]
      exact started
  · have absent : data.entry ptr = none := by
      rw [Option.eq_none_iff_forall_not_mem]
      exact fun e entry => touched ⟨ptr, e, entry, rfl⟩
    have kept := h.modify (l := lists (m.val ptr)) active other
      (fun k e owner _ => absurd ⟨k, e, owner.entry, owner.val⟩ touched)
      (fun _ => h.untouched _ touched)
    rw [Function.update_eq_self] at kept
    rw [VarArgsData.tryEmplace_absent _ (emplaced absent)]
    refine kept.assign_new ?_ ?_ (agrees_started _)
    · rintro ⟨k, e, entry, val⟩
      obtain ⟨e₀, entry₀, _⟩ := Option.map_eq_some_iff.1 entry
      exact touched ⟨k, e₀, entry₀, val⟩
    · rw [Bool.not_eq_true', Bool.eq_false_iff]
      exact fun same => touched ((matched_iff ptr).1 same)

theorem vaEnd_spec (ptr : K) (found : lists (m.val ptr) = some l) :
    (vaEnd (V := V) m data ptr).defined = true ∧ Matches m (vaEnd (V := V) m data ptr).data
        (Function.update lists (m.val ptr) none) := by
  obtain ⟨known, ensured, touched⟩ := ensureVarargsPtr_spec h found
  obtain ⟨k, e, owner, same⟩ := ensured.touched _ touched
  unfold vaEnd
  dsimp only
  constructor
  · rw [known, Bool.true_and]
    simp only [Bool.and_comm (m.val _ == m.val ptr)]
    refine (owner.all_iff Entry.alive).2 ?_
    rw [same.alive, found]
    rfl
  · refine ensured.modify (fun _ _ => rfl) (fun k e other => ?_) (fun k e owner _ => ?_)
      (fun untouched => absurd touched untouched)
    · simp [beq_eq_false_iff_ne.2 other]
    · refine ⟨by simp [owner.val], fun list some => ?_⟩
      cases some

theorem vaCopy_spec (dst src : K) (found : lists (m.val src) = some l) :
    (vaCopy (V := V) m data dst src).defined = true ∧
      Matches m (vaCopy (V := V) m data dst src).data
        (Function.update lists (m.val dst) (some l)) := by
  obtain ⟨known, ensured, touched⟩ := ensureVarargsPtr_spec h found
  obtain ⟨k, e, owner, same⟩ := ensured.touched _ touched
  unfold vaCopy
  dsimp only
  constructor
  · rw [known, Bool.true_and]
    refine (owner.all_iff Entry.alive).2 ?_
    rw [same.alive, found]
    rfl
  · rw [owner.disjoint_eq, owner.disjoint_eq, owner.disjoint_eq]
    refine ensured.assign_over rfl ⟨rfl, fun list some => ?_⟩
    cases some
    exact same.fields l found

theorem vaArg_spec (ptr : K) (ty : Ty)
    (found : lists (m.val ptr) = some l) (more : l.next < l.num) :
    (vaArg m data ptr ty).defined = true ∧ Matches m (vaArg m data ptr ty).data
        (Function.update lists (m.val ptr) (some { l with next := l.next + 1 })) ∧
      (SourceHere m lists (.vaArg ptr ty) →
        (vaArg m data ptr ty).ret = some (l.argument m ty)) := by
  obtain ⟨known, ensured, touched⟩ := ensureVarargsPtr_spec h found
  obtain ⟨k, e, owner, same⟩ := ensured.touched _ touched
  obtain ⟨next, num, isVaStart⟩ := same.fields l found
  -- there are fewer arguments than the counter can count
  have one : (e.nextArg + 1).toNat = l.next + 1 := by
    have bound := e.numArgs.isLt
    have oneNat : (1 : BitVec varargBits).toNat = 1 := rfl
    rw [BitVec.toNat_add, next, oneNat]
    exact Nat.mod_eq_of_lt (by omega)
  unfold vaArg
  dsimp only
  refine ⟨?_, ?_, fun here => ?_⟩
  · rw [known, Bool.true_and]
    refine (owner.all_iff fun entry =>
      entry.alive && decide (entry.nextArg + 1 ≤ entry.numArgs)).2 ?_
    rw [same.alive, found, Option.isSome_some, Bool.true_and, decide_eq_true_eq, BitVec.le_def,
      one, num]
    exact more
  · refine ensured.modify (fun _ _ => rfl) (fun k e other => ?_) (fun k' e' owner' _ => ?_)
      (fun untouched => absurd touched untouched)
    · simp [other]
    · obtain rfl := owner.only k' e' owner'.entry owner'.val owner'.active
      obtain rfl := Option.some.inj (owner.entry.symm.trans owner'.entry)
      refine ⟨by simp [same.alive, found], fun list some => ?_⟩
      cases some
      dsimp only
      rw [if_pos (beq_iff_eq.2 owner.val)]
      exact ⟨one, num, isVaStart⟩
  · rw [owner.disjoint_eq]
    unfold VaList.argument
    rw [isVaStart, next]
    cases source : l.source with
    | none => rfl
    | some a =>
      have own : a = m.val k := (here l found a source).trans owner.val.symm
      rw [own]
      rfl

theorem toSMT_spec (op : Op K Ty) {lists' : Lists Addr}
    {ret : Option V} (defined : exec m lists op = some (lists', ret)) :
    (toSMT m data op).defined = true ∧ Matches m (toSMT m data op).data lists' ∧
      (SourceHere m lists op → (toSMT m data op).ret = ret) := by
  cases op with
  | vaStart ptr =>
    cases defined
    exact ⟨rfl, vaStart_matches h ptr, fun _ => rfl⟩
  | vaEnd ptr =>
    obtain ⟨l, found, same⟩ := Option.map_eq_some_iff.1 defined
    cases same
    have spec := vaEnd_spec (V := V) h ptr found
    exact ⟨spec.1, spec.2, fun _ => rfl⟩
  | vaCopy dst src =>
    obtain ⟨l, found, same⟩ := Option.map_eq_some_iff.1 defined
    cases same
    have spec := vaCopy_spec (V := V) h dst src found
    exact ⟨spec.1, spec.2, fun _ => rfl⟩
  | vaArg ptr ty =>
    obtain ⟨l, found, same⟩ := Option.bind_eq_some_iff.1 defined
    split at same
    case isTrue more =>
        cases same
        exact vaArg_spec h ptr ty found more
    case isFalse => cases same

end

end AliveNext.IR.VarArgs
