import AliveNext.IR.StoredPointers

/-!
# The recorded offsets are enough

Along a run whose calls are decided, the record of a block covers every offset
in bounds whose contents may differ from the marked ones.  Comparing only the
recorded offsets then compares everything.
-/

namespace AliveNext.IR.Stored

variable {Ω T V Byte : Type} {w : Nat} {terms : Terms Ω T V Byte w} {cfg : Config}

theorem mkBlockIf_eq (c : Cond Ω) (thn els : Content Ω Byte w) :
    mkBlockIf c thn els = fun ω => if c.holds ω then thn ω else els ω := by
  unfold mkBlockIf Cond.isTrue Cond.isFalse
  split
  · rename_i known
    funext ω
    rw [c.sound true (of_decide_eq_true known) ω, if_pos rfl]
  · split
    · rename_i known
      funext ω
      rw [c.sound false (of_decide_eq_true known) ω, if_neg Bool.false_ne_true]
    · rfl

theorem mkBlockIf_true {c : Cond Ω} (known : c.isTrue = true) (thn els : Content Ω Byte w) :
    mkBlockIf c thn els = thn := by
  rw [mkBlockIf, if_pos known]

theorem mkBlockIf_false {c : Cond Ω} (known : c.isFalse = true) (thn els : Content Ω Byte w) :
    mkBlockIf c thn els = els := by
  have not_true : c.isTrue = false := by
    unfold Cond.isTrue Cond.isFalse at *
    rw [of_decide_eq_true known]
    rfl
  rw [mkBlockIf, not_true, if_neg Bool.false_ne_true, if_pos known]

/-! ## Records -/

def Record.Covers (eval : T → Ω → BitVec w) (set : Record T) (ω : Ω) (offset : BitVec w) : Prop :=
  set.second = true ∨ ∃ t ∈ set.first, eval t ω = offset

section

variable {eval : T → Ω → BitVec w} {ω : Ω} {offset : BitVec w}

theorem covers_full : (Record.full T).Covers eval ω offset :=
  .inl rfl

variable [DecidableEq T]

theorem covers_record_new (set : Record T) (t : T) :
    (set.recordStoredPointer t).Covers eval ω (eval t ω) := by
  unfold Record.recordStoredPointer
  split
  · rename_i flag
    exact .inl flag
  · split
    · exact covers_full
    · exact .inr ⟨t, Finset.mem_insert_self _ _, rfl⟩

theorem Record.Covers.record {set : Record T} (covers : set.Covers eval ω offset) (t : T) :
    (set.recordStoredPointer t).Covers eval ω offset := by
  unfold Record.recordStoredPointer
  split
  · exact covers
  · rename_i flag
    split
    · exact covers_full
    · rcases covers with set_flag | ⟨s, member, value⟩
      · exact absurd set_flag flag
      · exact .inr ⟨s, Finset.mem_insert_of_mem member, value⟩

theorem covers_foldl {α : Type} (term : α → T) (items : List α) (set : Record T)
    (covered : set.Covers eval ω offset ∨ ∃ item ∈ items, eval (term item) ω = offset) :
    (items.foldl (fun set item => set.recordStoredPointer (term item)) set).Covers
      eval ω offset := by
  induction items generalizing set with
  | nil =>
    rcases covered with covered | ⟨_, member, _⟩
    · exact covered
    · cases member
  | cons item items ih =>
    rw [List.foldl_cons]
    refine ih _ ?_
    rcases covered with covered | ⟨other, member, value⟩
    · exact .inl (covered.record _)
    · rcases List.mem_cons.1 member with rfl | member
      · rw [← value]
        exact .inl (covers_record_new _ _)
      · exact .inr ⟨other, member, value⟩

theorem Record.Covers.merge {set1 set2 : Record T}
    (covers : set1.Covers eval ω offset ∨ set2.Covers eval ω offset) :
    (set1.merge set2).Covers eval ω offset := by
  unfold Record.merge
  split
  · exact covers_full
  · rename_i small
    simp only [Bool.or_eq_true, not_or] at small
    rcases covers with (flag | ⟨t, member, value⟩) | (flag | ⟨t, member, value⟩)
    · exact absurd flag small.1.1
    · exact .inr ⟨t, Finset.mem_union_left _ member, value⟩
    · exact absurd flag small.1.2
    · exact .inr ⟨t, Finset.mem_union_right _ member, value⟩

end

/-! ## One store -/

def InBounds (cfg : Config) (size : Nat → Ω → Nat) (bid : Nat) (ω : Ω) (offset : BitVec w) : Prop :=
  (offset.toNat + 1) * cfg.unit ≤ size bid ω

section

variable [DecidableEq V] {ω : Ω} {offset : BitVec w}

theorem storeBytes_other {start : T} {skip : Option V} :
    ∀ {data : List (Nat × V)} {mem : Content Ω Byte w},
      (∀ d ∈ data, terms.eval (terms.add start (d.1 / cfg.unit)) ω ≠ offset) →
      storeBytes terms cfg start skip data mem ω offset = mem ω offset
  | [], _, _ => rfl
  | (idx, val) :: data, mem, apart => by
    have rest : ∀ d ∈ data, terms.eval (terms.add start (d.1 / cfg.unit)) ω ≠ offset :=
      fun d member => apart d (List.mem_cons_of_mem _ member)
    rw [storeBytes]
    split
    · exact storeBytes_other rest
    · rw [storeBytes_other rest]
      exact Function.update_of_ne (Ne.symm (apart _ List.mem_cons_self)) _ _

theorem storedVal_cases {access : Access Ω T} {data : List (Nat × V)} {size : Nat → Ω → Nat}
    (known : ∀ n, access.blockSize = some n → ∀ ω, size access.bid ω = n)
    (consecutive : ∀ i < data.length, ∃ d ∈ data, d.1 / cfg.unit = i)
    (defined : access.cond.holds ω = true →
      ((terms.eval access.offset ω).toNat + data.length) * cfg.unit ≤ size access.bid ω)
    (in_bounds : InBounds cfg size access.bid ω offset) (old : Content Ω Byte w) :
    storedVal terms cfg access data old ω offset = old ω offset ∨
      ∃ d ∈ data, terms.eval (terms.add access.offset (d.1 / cfg.unit)) ω = offset := by
  by_cases here : ∃ d ∈ data, terms.eval (terms.add access.offset (d.1 / cfg.unit)) ω = offset
  · exact .inr here
  refine .inl ?_
  have apart : ∀ d ∈ data, terms.eval (terms.add access.offset (d.1 / cfg.unit)) ω ≠ offset :=
    fun d member value => here ⟨d, member, value⟩
  unfold storedVal
  split
  · rfl
  · rename_i data idx first rest
    simp only [mkBlockIf_eq]
    split
    · rename_i denotes
      split
      · -- the store fills the block, so it starts at its first byte
        rename_i fills
        exfalso
        have size_eq := known _ fills ω
        have store_bounds := defined denotes
        rw [size_eq] at store_bounds
        have start_zero : (terms.eval access.offset ω).toNat = 0 := by
          have := Nat.le_of_mul_le_mul_right store_bounds cfg.unit_positive
          omega
        have below : offset.toNat < ((idx, first) :: rest).length := by
          unfold InBounds at in_bounds
          rw [size_eq] at in_bounds
          exact Nat.le_of_mul_le_mul_right in_bounds cfg.unit_positive
        obtain ⟨d, member, place⟩ := consecutive _ below
        refine apart d member ?_
        rw [terms.eval_add, place]
        apply BitVec.eq_of_toNat_eq
        rw [BitVec.toNat_add, start_zero, Nat.zero_add, BitVec.ofNat_toNat, BitVec.setWidth_eq,
          Nat.mod_eq_of_lt offset.isLt]
      · rw [storeBytes_other apart]
    · rfl

end

/-! ## Steps -/

/-- A call that surely writes a block or surely does not, and that does not
write to inaccessible memory without flagging it. -/
def Call.Decided (cfg : Config) (call : Call Ω Byte w) : Prop :=
  call.canWriteSomething.isFalse = true ∨
    (call.onlyWriteInaccess.isFalse = true ∨ call.writesInaccess.isFalse = true ∨
        call.inaccessibleBlock cfg = cfg.fncallmemBid) ∧
      (call.onlyWriteInaccess.isTrue = true ∨
        ∀ bid, cfg.writtenByCalls bid = true → bid = cfg.fncallmemBid ∨
          (call.modifies bid).isTrue = true ∨ (call.modifies bid).isFalse = true)

/-- The operations after which the records are right: decided calls, and copies
to local blocks. -/
def Event.Decided (cfg : Config) : Event Ω T V Byte w → Prop
  | .copy _ dstLocal _ _ => dstLocal = true
  | .setState call => call.Decided cfg
  | _ => True

def TrackedAt (eval : T → Ω → BitVec w) (cfg : Config) (size : Nat → Ω → Nat) (ω : Ω)
    (m : Memory Ω T Byte w) (mark : Nat → Content Ω Byte w) : Prop :=
  ∀ bid offset, InBounds cfg size bid ω offset →
    m.nonLocalBlockVal bid ω offset ≠ mark bid ω offset →
    (m.storedPointers bid).Covers eval ω offset

def Fixed (cfg : Config) (init val : Nat → Content Ω Byte w) : Prop :=
  ∀ bid, cfg.alwaysNowrite bid false true = true → val bid = init bid

theorem Fixed.update {init val : Nat → Content Ω Byte w} (fixed : Fixed cfg init val) {bid : Nat}
    (written : cfg.alwaysNowrite bid false true = false) (new : Content Ω Byte w) :
    Fixed cfg init (Function.update val bid new) := by
  intro other nowrite
  have apart : other ≠ bid := by
    rintro rfl
    rw [written] at nowrite
    cases nowrite
  rw [Function.update_of_ne apart]
  exact fixed other nowrite

theorem writtenByCalls_writable {bid : Nat} (written : cfg.writtenByCalls bid = true) :
    cfg.alwaysNowrite bid false true = false := by
  unfold Config.writtenByCalls at written
  simp only [Bool.and_eq_true, decide_eq_true_eq, Bool.not_eq_true'] at written
  obtain ⟨below, writable⟩ := written
  unfold Config.alwaysNowrite Config.isConstglb at writable ⊢
  simp only [Bool.or_eq_false_iff, Bool.not_true, Bool.false_and] at writable
  simp only [Bool.or_eq_false_iff]
  refine ⟨writable.1, writable.2.1, ?_⟩
  rw [Bool.and_eq_false_iff, Bool.and_eq_false_iff]
  refine .inl (.inr ?_)
  rw [decide_eq_false_iff_not]
  omega

section

variable {size : Nat → Ω → Nat} {ω : Ω} {m : Memory Ω T Byte w} {init mark : Nat → Content Ω Byte w}

variable {data : List (Nat × V)} {access : Access Ω T} {val : Content Ω Byte w}
  {call : Call Ω Byte w}

theorem storeBlock_tracked [DecidableEq T] [DecidableEq V]
    (tracked : TrackedAt terms.eval cfg size ω m mark)
    (known : access.isLocal = false → ∀ n, access.blockSize = some n → ∀ ω, size access.bid ω = n)
    (consecutive : ∀ i < data.length, ∃ d ∈ data, d.1 / cfg.unit = i)
    (defined : access.isLocal = false → access.cond.holds ω = true →
      ((terms.eval access.offset ω).toNat + data.length) * cfg.unit ≤ size access.bid ω) :
    TrackedAt terms.eval cfg size ω (storeBlock terms cfg data m access) mark := by
  unfold storeBlock
  split
  · exact tracked
  · rename_i nonlocal
    have nonlocal : access.isLocal = false := by simpa using nonlocal
    intro bid offset in_bounds differs
    by_cases same : bid = access.bid
    · subst same
      simp only [Function.update_self] at differs ⊢
      refine covers_foldl _ data _ ?_
      rcases storedVal_cases (known nonlocal) consecutive (defined nonlocal) in_bounds
        (m.nonLocalBlockVal access.bid) with unchanged | written
      · rw [unchanged] at differs
        exact .inl (tracked _ _ in_bounds differs)
      · exact .inr written
    · simp only [Function.update_of_ne same] at differs ⊢
      exact tracked bid offset in_bounds differs

theorem storeBlock_fixed [DecidableEq T] [DecidableEq V] (fixed : Fixed cfg init m.nonLocalBlockVal)
    (writable : access.isLocal = false → cfg.alwaysNowrite access.bid false true = false) :
    Fixed cfg init (storeBlock terms cfg data m access).nonLocalBlockVal := by
  unfold storeBlock
  split
  · exact fixed
  · rename_i nonlocal
    exact fixed.update (writable (by simpa using nonlocal)) _

theorem storeLambdaBlock_tracked {access : LambdaAccess Ω T}
    (tracked : TrackedAt terms.eval cfg size ω m mark) :
    TrackedAt terms.eval cfg size ω (storeLambdaBlock terms val m access) mark := by
  unfold storeLambdaBlock
  split
  · exact tracked
  · intro bid offset in_bounds differs
    by_cases same : bid = access.bid
    · subst same
      simp only [Function.update_self]
      exact covers_full
    · simp only [Function.update_of_ne same] at differs ⊢
      exact tracked bid offset in_bounds differs

theorem storeLambdaBlock_fixed {access : LambdaAccess Ω T}
    (fixed : Fixed cfg init m.nonLocalBlockVal)
    (writable : access.isLocal = false → cfg.alwaysNowrite access.bid false true = false) :
    Fixed cfg init (storeLambdaBlock terms val m access).nonLocalBlockVal := by
  unfold storeLambdaBlock
  split
  · exact fixed
  · rename_i nonlocal
    exact fixed.update (writable (by simpa using nonlocal)) _

theorem foldl_keeps {α σ : Type} {P : σ → Prop} {f : σ → α → σ} {items : List α} {s : σ}
    (start : P s) (keeps : ∀ s, ∀ item ∈ items, P s → P (f s item)) : P (items.foldl f s) := by
  induction items generalizing s with
  | nil => exact start
  | cons item items ih =>
    exact ih (keeps s item List.mem_cons_self start) fun s other member =>
      keeps s other (List.mem_cons_of_mem _ member)

theorem setState_fixed (fixed : Fixed cfg init m.nonLocalBlockVal)
    (writable : cfg.alwaysNowrite (call.inaccessibleBlock cfg) false true = false) :
    Fixed cfg init (m.setState cfg call).nonLocalBlockVal := by
  unfold Memory.setState
  split
  · exact fixed
  · intro bid nowrite
    have not_written : cfg.writtenByCalls bid = false := by
      by_contra written
      rw [writtenByCalls_writable (by simpa using written)] at nowrite
      cases nowrite
    show call.havoc cfg _ bid = init bid
    rw [Call.havoc, not_written, Bool.and_false, if_neg Bool.false_ne_true]
    unfold Call.havocInaccessible
    split
    · exact fixed bid nowrite
    · exact fixed.update writable _ bid nowrite

/-- A decided call keeps the records right: a block that it surely writes is
marked anew, and the block for the effects of calls is flagged. -/
theorem setState_tracked {eval : T → Ω → BitVec w}
    (decided : call.Decided cfg) (tracked : TrackedAt eval cfg size ω m mark) :
    TrackedAt eval cfg size ω (m.setState cfg call)
      fun bid => (call.overwrites cfg bid).getD (mark bid) := by
  unfold Memory.setState Call.overwrites
  rcases decided with silent | ⟨inaccess, blocks⟩
  · rw [if_pos silent, silent]
    exact tracked
  by_cases silent : call.canWriteSomething.isFalse = true
  · rw [if_pos silent, silent]
    exact tracked
  have speaks : call.canWriteSomething.isFalse = false := by simpa using silent
  rw [if_neg silent, speaks]
  intro bid offset in_bounds differs
  by_cases flagged : bid = cfg.fncallmemBid
  · subst flagged
    simp only [Function.update_self]
    exact .inl rfl
  simp only [Function.update_of_ne flagged]
  -- the inaccessible block is the flagged one or unchanged
  have inaccess_eq : call.havocInaccessible cfg m.nonLocalBlockVal bid =
      m.nonLocalBlockVal bid := by
    unfold Call.havocInaccessible
    split
    · rfl
    · rename_i may
      by_cases same : bid = call.inaccessibleBlock cfg
      · rcases inaccess with never | never | same_block
        · exact absurd never may
        · subst same
          rw [Function.update_self, mkBlockIf_false never]
        · exact absurd (same.trans same_block) flagged
      · exact Function.update_of_ne same _ _
  simp only [Call.havoc, Call.reset, inaccess_eq] at differs ⊢
  by_cases loop : (!call.onlyWriteInaccess.isTrue && cfg.writtenByCalls bid) = true
  · rw [if_pos loop] at differs
    rw [Bool.and_eq_true, Bool.not_eq_true'] at loop
    have choice : (call.modifies bid).isTrue = true ∨ (call.modifies bid).isFalse = true := by
      rcases blocks with only | each
      · rw [loop.1] at only
        cases only
      · exact (each bid loop.2).resolve_left flagged
    rcases choice with writes | keeps
    · refine absurd ?_ differs
      rw [mkBlockIf_true writes, loop.1, loop.2, writes]
      rfl
    · have not_true : (call.modifies bid).isTrue = false := by
        unfold Cond.isTrue Cond.isFalse at *
        rw [of_decide_eq_true keeps]
        rfl
      rw [mkBlockIf_false keeps, not_true, Bool.and_false] at differs
      rw [keeps, Bool.not_true, Bool.and_false, if_neg Bool.false_ne_true]
      exact tracked bid offset in_bounds differs
  · rw [if_neg loop] at differs
    have loop : (!call.onlyWriteInaccess.isTrue && cfg.writtenByCalls bid) = false := by
      simpa using loop
    rw [loop, Bool.false_and, if_neg Bool.false_ne_true]
    rw [Bool.not_false, Bool.true_and, loop, Bool.false_and] at differs
    exact tracked bid offset in_bounds differs

end

/-! ## Runs -/

theorem overwrites_fixed {event : Event Ω T V Byte w} {first mark : Nat → Content Ω Byte w}
    (fixed : Fixed cfg first mark) :
    Fixed cfg first fun bid => (event.overwrites cfg bid).getD (mark bid) := by
  intro bid nowrite
  have none_written : event.overwrites cfg bid = none := by
    cases event with
    | setState call =>
      have not_written : cfg.writtenByCalls bid = false := by
        by_contra written
        rw [writtenByCalls_writable (by simpa using written)] at nowrite
        cases nowrite
      show call.overwrites cfg bid = none
      rw [Call.overwrites, not_written, Bool.and_false, Bool.false_and, if_neg Bool.false_ne_true]
    | _ => rfl
  simp only [none_written, Option.getD_none]
  exact fixed bid nowrite

section

variable [DecidableEq T] [DecidableEq V] {size : Nat → Ω → Nat}
  {m init : Memory Ω T Byte w} {mark : Nat → Content Ω Byte w} {defined : Ω → Prop}

theorem apply_tracked {event : Event Ω T V Byte w} {ω : Ω} (decided : event.Decided cfg)
    (well_formed : event.WellFormed cfg size) (event_defined : event.Defined terms cfg size ω)
    (tracked : TrackedAt terms.eval cfg size ω m mark) :
    TrackedAt terms.eval cfg size ω (m.apply terms cfg event)
      fun bid => (event.overwrites cfg bid).getD (mark bid) := by
  cases event with
  | store accesses data =>
    refine foldl_keeps (P := fun (m : Memory Ω T Byte w) =>
      TrackedAt terms.eval cfg size ω m mark) tracked ?_
    intro m access member tracked
    exact storeBlock_tracked tracked (fun nonlocal => (well_formed.1 access member nonlocal).2)
      well_formed.2 (event_defined access member)
  | storeLambda accesses val =>
    refine foldl_keeps (P := fun (m : Memory Ω T Byte w) =>
      TrackedAt terms.eval cfg size ω m mark) tracked ?_
    intro m access _ tracked
    exact storeLambdaBlock_tracked tracked
  | copy poison dstLocal dst sources =>
    have to_local : dstLocal = true := decided
    show TrackedAt terms.eval cfg size ω (m.copy terms poison dstLocal dst sources) mark
    unfold Memory.copy
    rw [if_pos to_local]
    exact tracked
  | setState call => exact setState_tracked decided tracked

theorem apply_fixed {event : Event Ω T V Byte w} {first : Nat → Content Ω Byte w}
    (decided : event.Decided cfg) (well_formed : event.WellFormed cfg size)
    (fixed : Fixed cfg first m.nonLocalBlockVal) :
    Fixed cfg first (m.apply terms cfg event).nonLocalBlockVal := by
  cases event with
  | store accesses data =>
    refine foldl_keeps (P := fun (m : Memory Ω T Byte w) =>
      Fixed cfg first m.nonLocalBlockVal) fixed ?_
    intro m access member fixed
    exact storeBlock_fixed fixed fun nonlocal => (well_formed.1 access member nonlocal).1
  | storeLambda accesses val =>
    refine foldl_keeps (P := fun (m : Memory Ω T Byte w) =>
      Fixed cfg first m.nonLocalBlockVal) fixed ?_
    intro m access member fixed
    exact storeLambdaBlock_fixed fixed (well_formed access member)
  | copy poison dstLocal dst sources =>
    have to_local : dstLocal = true := decided
    show Fixed cfg first (m.copy terms poison dstLocal dst sources).nonLocalBlockVal
    unfold Memory.copy
    rw [if_pos to_local]
    exact fixed
  | setState call => exact setState_fixed fixed well_formed

theorem run_tracked (run : Run terms cfg size (Event.Decided cfg) init m mark defined) :
    Fixed cfg init.nonLocalBlockVal m.nonLocalBlockVal ∧ Fixed cfg init.nonLocalBlockVal mark ∧
      ∀ ω, defined ω → TrackedAt terms.eval cfg size ω m mark := by
  induction run with
  | init =>
    refine ⟨fun _ _ => rfl, fun _ _ => rfl, ?_⟩
    intro ω _ bid offset _ differs
    exact absurd rfl differs
  | step run decided well_formed ih =>
    obtain ⟨val_fixed, mark_fixed, tracked⟩ := ih
    refine ⟨apply_fixed decided well_formed val_fixed, overwrites_fixed mark_fixed, ?_⟩
    intro ω both
    exact apply_tracked decided well_formed both.2 (tracked ω both.1)
  | @mark m mark defined bid run ih =>
    obtain ⟨val_fixed, mark_fixed, tracked⟩ := ih
    refine ⟨val_fixed, ?_, ?_⟩
    · intro other nowrite
      by_cases same : other = bid
      · subst same
        rw [Function.update_self]
        exact val_fixed other nowrite
      · rw [Function.update_of_ne same]
        exact mark_fixed other nowrite
    · intro ω model other offset in_bounds differs
      by_cases same : other = bid
      · subst same
        rw [Function.update_self] at differs
        exact absurd rfl differs
      · rw [Function.update_of_ne same] at differs
        exact tracked ω model other offset in_bounds differs
  | @mkIf thn els thnMark elsMark thnDefined elsDefined cond thn_run els_run thn_ih els_ih =>
    obtain ⟨thn_fixed, thnMark_fixed, thn_tracked⟩ := thn_ih
    obtain ⟨els_fixed, elsMark_fixed, els_tracked⟩ := els_ih
    have marks_fixed : Fixed cfg init.nonLocalBlockVal fun bid ω =>
        if cond.holds ω then thnMark bid ω else elsMark bid ω := by
      intro bid nowrite
      funext ω
      simp only [thnMark_fixed bid nowrite, elsMark_fixed bid nowrite, ite_self]
    have val_fixed : Fixed cfg init.nonLocalBlockVal
        (Memory.mkIf cfg cond thn els).nonLocalBlockVal := by
      intro bid nowrite
      simp only [Memory.mkIf, nowrite, if_true]
      exact thn_fixed bid nowrite
    refine ⟨val_fixed, marks_fixed, ?_⟩
    intro ω model bid offset in_bounds differs
    by_cases nowrite : cfg.alwaysNowrite bid false true = true
    · refine absurd ?_ differs
      rw [val_fixed bid nowrite, ← marks_fixed bid nowrite]
    · simp only [Memory.mkIf, if_neg nowrite, mkBlockIf_eq] at differs
      refine Record.Covers.merge ?_
      by_cases taken : cond.holds ω = true
      · rw [if_pos taken] at model
        rw [if_pos taken, if_pos taken] at differs
        exact .inl (thn_tracked ω model bid offset in_bounds differs)
      · rw [if_neg taken] at model
        rw [if_neg taken, if_neg taken] at differs
        exact .inr (els_tracked ω model bid offset in_bounds differs)

end

section

variable {src tgt : Memory Ω T Byte w} (c : Comparison src tgt)

def Comparison.SameOrRefined (bid : Nat) (ω : Ω) (a b : Byte) : Prop :=
  a = b ∨ c.byteRefined bid ω a b

variable {c} {bid : Nat} {ω : Ω} {offset : BitVec w}

theorem offsetRefined_sound (refined : c.offsetRefined bid ω offset) :
    c.SameOrRefined bid ω (src.nonLocalBlockVal bid ω offset)
      (tgt.nonLocalBlockVal bid ω offset) := by
  unfold Comparison.offsetRefined at refined
  split at refined
  · split at refined
    · exact .inl (congrFun refined offset)
    · exact refined.elim
  · split at refined
    · rename_i same
      exact .inl (c.sameByte_sound bid ω offset same)
    · exact .inr refined

variable (in_bounds : InBounds cfg c.srcSize bid ω offset)

include in_bounds

theorem blockValRefined_sound {full : Bool} (refined : c.blockValRefined cfg bid ω offset full) :
    c.SameOrRefined bid ω (src.nonLocalBlockVal bid ω offset)
      (tgt.nonLocalBlockVal bid ω offset) := by
  unfold Comparison.blockValRefined at refined
  split at refined
  · rename_i same
    exact .inl (by rw [c.sameBlock_sound bid same])
  · split at refined
    · exact .inl (congrFun refined offset)
    · split at refined
      · split at refined
        · rename_i bytes small
          have below : offset.toNat < bytes := by
            unfold Comparison.smallBlock at small
            split at small
            · rename_i size known
              split at small
              · cases small
                unfold InBounds at in_bounds
                rw [c.constSize_sound bid size known ω] at in_bounds
                exact (Nat.le_div_iff_mul_le cfg.unit_positive).2 in_bounds
              · cases small
            · cases small
          have value : BitVec.ofNat w offset.toNat = offset := by
            rw [BitVec.ofNat_toNat, BitVec.setWidth_eq]
          have here := refined offset.toNat below value.symm
          rw [value] at here
          exact offsetRefined_sound here
        · refine offsetRefined_sound (refined ?_)
          unfold InBounds at in_bounds
          have := cfg.unit_positive
          rw [Nat.succ_mul] at in_bounds
          omega
      · exact offsetRefined_sound refined

theorem valRefined_covered [DecidableEq T] {eval : T → Ω → BitVec w}
    (covered : (src.storedPointers bid).Covers eval ω offset ∨
      (tgt.storedPointers bid).Covers eval ω offset)
    (refined : c.valRefined cfg eval bid ω offset) :
    c.SameOrRefined bid ω (src.nonLocalBlockVal bid ω offset)
      (tgt.nonLocalBlockVal bid ω offset) := by
  unfold Comparison.valRefined at refined
  simp only at refined
  split at refined
  · -- nothing was stored, so nothing is covered
    rename_i empty
    simp only [Record.Covers, empty, Finset.notMem_empty, false_and, exists_false, or_false]
      at covered
    simp only [Bool.not_eq_true'] at empty
    rcases covered with flag | flag
    · rw [empty.1] at flag
      cases flag
    · rw [empty.2.2.1] at flag
      cases flag
  · split at refined
    · exact blockValRefined_sound in_bounds refined
    · split at refined
      · exact blockValRefined_sound in_bounds refined
      · rename_i unflagged
        simp only [Bool.or_eq_true, not_or] at unflagged
        have member : ∃ t ∈ (src.storedPointers bid).first ∪ (tgt.storedPointers bid).first,
            eval t ω = offset := by
          rcases covered with (flag | ⟨t, member, value⟩) | (flag | ⟨t, member, value⟩)
          · exact absurd flag unflagged.1.1
          · exact ⟨t, Finset.mem_union_left _ member, value⟩
          · exact absurd flag unflagged.1.2
          · exact ⟨t, Finset.mem_union_right _ member, value⟩
        obtain ⟨t, member, rfl⟩ := member
        exact blockValRefined_sound in_bounds (refined t member rfl)

theorem valRefined_sound [DecidableEq T] {eval : T → Ω → BitVec w} {a b : Byte}
    (src_tracked : src.nonLocalBlockVal bid ω offset ≠ a →
      (src.storedPointers bid).Covers eval ω offset)
    (tgt_tracked : tgt.nonLocalBlockVal bid ω offset ≠ b →
      (tgt.storedPointers bid).Covers eval ω offset)
    (marks : c.SameOrRefined bid ω a b) (refined : c.valRefined cfg eval bid ω offset) :
    c.SameOrRefined bid ω (src.nonLocalBlockVal bid ω offset)
      (tgt.nonLocalBlockVal bid ω offset) := by
  by_cases covered : (src.storedPointers bid).Covers eval ω offset ∨
      (tgt.storedPointers bid).Covers eval ω offset
  · exact valRefined_covered in_bounds covered refined
  · rw [not_or] at covered
    rw [not_not.1 (mt src_tracked covered.1), not_not.1 (mt tgt_tracked covered.2)]
    exact marks

end

section

variable [DecidableEq T] [DecidableEq V] {srcInit tgtInit src tgt : Memory Ω T Byte w}
  {srcMark tgtMark : Nat → Content Ω Byte w} {srcDefined tgtDefined : Ω → Prop}

/-- The records of two memories are right in a model: they cover what differs
from the marks, and if the marks of a checked block agree, then comparing the
memories with `refined` compares every byte of it. -/
structure RecordsRight (terms : Terms Ω T V Byte w) (cfg : Config) (c : Comparison src tgt)
    (srcMark tgtMark : Nat → Content Ω Byte w) (ω : Ω) : Prop where
  src_tracked : TrackedAt terms.eval cfg c.srcSize ω src srcMark
  tgt_tracked : TrackedAt terms.eval cfg c.tgtSize ω tgt tgtMark
  compared : (∀ ptrBid offset, c.refined cfg terms.eval ω ptrBid offset) →
    ∀ bid < cfg.numNonlocalsSrc, c.checked cfg bid = true → c.srcAlive bid ω = true →
      (∀ offset, InBounds cfg c.srcSize bid ω offset →
        c.SameOrRefined bid ω (srcMark bid ω offset) (tgtMark bid ω offset)) →
      ∀ offset, InBounds cfg c.srcSize bid ω offset →
        c.SameOrRefined bid ω (src.nonLocalBlockVal bid ω offset)
          (tgt.nonLocalBlockVal bid ω offset)

/-- The records are right after every pair of decided runs. -/
theorem decided_runs_recordsRight {c : Comparison src tgt}
    (src_run : Run terms cfg c.srcSize (Event.Decided cfg) srcInit src srcMark srcDefined)
    (tgt_run : Run terms cfg c.tgtSize (Event.Decided cfg) tgtInit tgt tgtMark tgtDefined)
    {ω : Ω} (src_defined : srcDefined ω) (tgt_defined : tgtDefined ω) :
    RecordsRight terms cfg c srcMark tgtMark ω := by
  have src_tracked := (run_tracked src_run).2.2 ω src_defined
  have tgt_tracked := (run_tracked tgt_run).2.2 ω tgt_defined
  refine ⟨src_tracked, tgt_tracked, ?_⟩
  intro refined bid below checked alive marks offset in_bounds
  obtain ⟨⟨-, sizes, -⟩, vals⟩ := refined bid offset bid below checked rfl
  have tgt_in_bounds : InBounds cfg c.tgtSize bid ω offset := by
    unfold InBounds at in_bounds ⊢
    rwa [← sizes]
  exact valRefined_sound in_bounds (src_tracked bid offset in_bounds)
    (tgt_tracked bid offset tgt_in_bounds) (marks offset in_bounds) (vals alive)

end

/-! ## A call that may or may not write -/

def constantTerms : Terms Bool (BitVec 8) Bool Bool 8 where
  eval t _ := t
  add t n := t + BitVec.ofNat 8 n
  eval_add _ _ _ := rfl
  zero := 0
  byte v _ := v

/-- The null block, one block of 16 bytes, and the block for the effects of
calls. -/
def threeBlocks : Config where
  unit := 1
  unit_positive := by decide
  numNonlocals := 3
  numNonlocalsSrc := 3
  numConstsSrc := 0
  numInaccessiblememonlyFns := 0
  hasWriteFncall := true
  hasNullBlock := true
  nullIsDereferenceable := false

def zeroMemory : Memory Bool (BitVec 8) Bool 8 where
  localBlockVal _ _ _ := false
  nonLocalBlockVal _ _ _ := false
  storedPointers _ := ⟨∅, false⟩

def Cond.constant (Ω : Type) (b : Bool) : Cond Ω where
  holds _ := b
  known := some b
  sound _ known _ := Option.some.inj known

def writesVariable : Cond Bool where
  holds ω := ω
  known := none
  sound _ known := by cases known

def storeOne : Event Bool (BitVec 8) Bool Bool 8 :=
  .store [⟨false, 1, Cond.constant Bool true, 5, none⟩] [(0, true)]

/-- A call that writes all blocks or none. -/
def mayWrite : Event Bool (BitVec 8) Bool Bool 8 :=
  .setState
    { canWriteSomething := Cond.constant Bool true
      onlyWriteInaccess := Cond.constant Bool false
      writesInaccess := Cond.constant Bool false
      inaccessibleBid := 0
      inaccessibleVal := fun _ _ => false
      modifies := fun _ => writesVariable
      newVal := fun _ _ _ => false }

def byteComparison (src tgt : Memory Bool (BitVec 8) Bool 8) : Comparison src tgt where
  fncall := false
  srcNextNonlocalBid := 2
  tgtNextNonlocalBid := 2
  isGVUsed _ := true
  isByval _ := false
  srcSize _ _ := 16
  tgtSize _ _ := 16
  srcAlive _ _ := true
  tgtAlive _ _ := true
  blockAttrsRefined _ _ := True
  constSize _ := none
  constSize_sound _ _ known := by cases known
  sameBlock _ := false
  sameBlock_sound _ same := by cases same
  srcInitial _ := 0
  tgtInitial _ := 0
  sameByte _ _ _ := false
  sameByte_sound _ _ _ same := by cases same
  byteRefined _ _ a b := a = b

theorem storeOne_wellFormed : storeOne.WellFormed threeBlocks fun _ _ => 16 := by
  refine ⟨?_, ?_⟩
  · intro a member _
    rw [List.mem_singleton] at member
    subst member
    exact ⟨by decide, nofun⟩
  · intro i below
    have first : i = 0 := Nat.lt_one_iff.1 below
    exact ⟨(0, true), List.mem_cons_self, first.symm⟩

theorem storeOne_defined (ω : Bool) :
    storeOne.Defined constantTerms threeBlocks (fun _ _ => 16) ω := by
  intro a member _ _
  rw [List.mem_singleton] at member
  subst member
  show (5 + 1) * 1 ≤ 16
  decide

theorem storeOne_recordsRight :
    RecordsRight constantTerms threeBlocks
      (byteComparison (zeroMemory.apply constantTerms threeBlocks storeOne) zeroMemory)
      (fun bid => (storeOne.overwrites threeBlocks bid).getD (zeroMemory.nonLocalBlockVal bid))
      zeroMemory.nonLocalBlockVal false :=
  decided_runs_recordsRight
    (Run.step Run.init (show storeOne.Decided threeBlocks from trivial) storeOne_wellFormed)
    Run.init ⟨trivial, storeOne_defined false⟩ trivial

/-- If the call does not write, the store before it is still there, but its
offset is forgotten: the memories compare as refined in every place and differ. -/
theorem mayWrite_forgets_store :
    ∃ (src tgt : Memory Bool (BitVec 8) Bool 8) (srcMark tgtMark : Nat → Content Bool Bool 8)
      (srcDefined tgtDefined : Bool → Prop),
      Run constantTerms threeBlocks (byteComparison src tgt).srcSize (fun _ => True) zeroMemory
        src srcMark srcDefined ∧
      Run constantTerms threeBlocks (byteComparison src tgt).tgtSize (fun _ => True) zeroMemory
        tgt tgtMark tgtDefined ∧
      srcDefined false ∧ tgtDefined false ∧
      (∀ ptrBid offset,
        (byteComparison src tgt).refined threeBlocks constantTerms.eval false ptrBid offset) ∧
      ¬ RecordsRight constantTerms threeBlocks (byteComparison src tgt) srcMark tgtMark false := by
  have call_wellFormed : mayWrite.WellFormed threeBlocks fun _ _ => 16 := by
    show threeBlocks.alwaysNowrite 3 false true = false
    decide
  have src_run : Run constantTerms threeBlocks (fun _ _ => 16) (fun _ => True) zeroMemory _ _ _ :=
    Run.step (Run.step Run.init trivial storeOne_wellFormed) trivial call_wellFormed
  have tgt_run : Run constantTerms threeBlocks (fun _ _ => 16) (fun _ => True) zeroMemory _ _ _ :=
    Run.step Run.init trivial call_wellFormed
  set src := (zeroMemory.apply constantTerms threeBlocks storeOne).apply constantTerms threeBlocks
    mayWrite with src_eq
  set tgt := zeroMemory.apply constantTerms threeBlocks mayWrite with tgt_eq
  have refined : ∀ ptrBid offset,
      (byteComparison src tgt).refined threeBlocks constantTerms.eval false ptrBid offset := by
    intro ptrBid offset bid below checked _
    refine ⟨⟨rfl, rfl, trivial⟩, fun _ => ?_⟩
    have cases_bid : bid = 0 ∨ bid = 1 ∨ bid = 2 := by
      have : bid < 3 := below
      omega
    rcases cases_bid with rfl | rfl | rfl
    · exact absurd checked (by decide)
    · unfold Comparison.valRefined
      rw [if_pos ⟨rfl, rfl, rfl, rfl⟩]
      trivial
    · show (byteComparison src tgt).valRefined threeBlocks constantTerms.eval 2 false offset
      have effects : (byteComparison src tgt).blockValRefined threeBlocks 2 false offset true := by
        unfold Comparison.blockValRefined
        rw [if_neg (show ¬ (byteComparison src tgt).sameBlock 2 = true from Bool.false_ne_true),
          if_pos (show threeBlocks.isFncallMem 2 = true from rfl)]
        rfl
      unfold Comparison.valRefined
      rw [if_neg (by decide), if_neg (by decide),
        if_pos (show ((src.storedPointers 2).second || _ || _) = true from rfl)]
      exact effects
  refine ⟨src, tgt, _, _, _, _, src_run, tgt_run, ⟨⟨trivial, storeOne_defined false⟩, trivial⟩,
    ⟨trivial, trivial⟩, refined, ?_⟩
  intro right
  have in_bounds : InBounds threeBlocks (byteComparison src tgt).srcSize 1 false
      (5 : BitVec 8) := by
    show (5 + 1) * 1 ≤ 16
    decide
  have same := right.compared refined 1 (by decide) (by decide) rfl (fun _ _ => .inl rfl) 5
    in_bounds
  have differ : src.nonLocalBlockVal 1 false 5 ≠ tgt.nonLocalBlockVal 1 false 5 := by decide
  exact same.elim differ differ

end AliveNext.IR.Stored
