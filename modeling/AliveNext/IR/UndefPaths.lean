import AliveNext.IR.UndefIndependent

/-!
# Reads on the paths of a function

The symbolic execution goes through the blocks in their order. Along each path the reads of a value
are independent.
-/

namespace AliveNext.IR.UndefReads

variable {E D : Type}

def Edge {x : Exprs E D} (f : Function x) (blocks : Trace E) (i j : Nat) : Prop :=
  i < j ∧ (∃ b, f[j]? = some b ∧ i ∈ b.preds) ∧ (blocks.exit i).isSome = true

section

variable {x : Exprs E D} {s : State E}

theorem mem_unused_of_meet (rest : List (State E)) (a : Analysis E) (v : Val)
    (member : v ∈ (rest.foldl (fun a pred => a.meetWith x pred.analysis) a).unused) :
    v ∈ a.unused ∧ ∀ pred ∈ rest, v ∈ pred.analysis.unused := by
  induction rest generalizing a with
  | nil => exact ⟨member, List.forall_mem_nil _⟩
  | cons first rest ih =>
    obtain ⟨both, later⟩ := ih _ member
    have split := setIntersection_subset _ _ v both
    refine ⟨split.1, fun pred inside => ?_⟩
    rcases List.mem_cons.1 inside with rfl | inside
    · exact split.2
    · exact later pred inside

theorem nonUndef_of_meet (rest : List (State E)) (a : Analysis E) (v : Val) (e : E)
    (found : (rest.foldl (fun a pred => a.meetWith x pred.analysis) a).nonUndef v = some e) :
    a.nonUndef v = some e := by
  induction rest generalizing a with
  | nil => exact found
  | cons first rest ih => exact x.meetNonUndef_left _ _ v e (ih _ found)

theorem startBB_spec {blocks : Trace E} {preds : List Nat} {start : State E} (wf : Wf x s)
    (exits : ∀ i exit, blocks.exit i = some exit → Wf x exit ∧ Grows x exit s)
    (run : startBB x blocks s preds = some start) :
    Wf x start ∧ Grows x s start ∧
      ∀ i ∈ preds, ∀ exit, blocks.exit i = some exit → Follows x exit start := by
  unfold startBB at run
  split at run
  · cases run
  · rename_i first rest preds_eq
    cases run
    have joined : ∀ pred ∈ first :: rest, ∃ i, blocks.exit i = some pred := by
      intro pred member
      rw [← preds_eq] at member
      obtain ⟨i, _, found⟩ := List.mem_filterMap.1 member
      exact ⟨i, found⟩
    refine ⟨⟨wf.vals, wf.valUndefs, wf.undefs, fun v e found y member => ?_⟩,
      ⟨Nat.le_refl _, fun v t found => ⟨t, found, .refl⟩⟩, fun i inside exit found => ?_⟩
    · obtain ⟨i, exit⟩ := joined first List.mem_cons_self
      obtain ⟨wf', grows⟩ := exits i first exit
      exact (wf'.nonUndefs v e (nonUndef_of_meet rest _ v e found) y member).mono grows.nextFresh
    · obtain ⟨_, grows⟩ := exits i exit found
      have among : exit ∈ first :: rest := by
        rw [← preds_eq]
        exact List.mem_filterMap.2 ⟨i, inside, found⟩
      refine ⟨⟨grows.nextFresh, grows.values⟩, fun v t _ used member => used ?_⟩
      have both := mem_unused_of_meet rest _ v member
      rcases List.mem_cons.1 among with rfl | later
      · exact both.1
      · exact both.2 exit later

end

section

variable {x : Exprs E D} [DecidableEq E] {tgtIsAsm : Bool} {s s' : State E} {rs : List (Read E)}

theorem execInstrs_chain (instrs : List (Instr x)) (wf : Wf x s)
    (run : execInstrs x tgtIsAsm s instrs = some (s', rs)) : Wf x s' ∧ Chain x s rs s' := by
  have general : ∀ (instrs : List (Instr x)) (s₁ : State E) (rs₁ : List (Read E)),
      Wf x s₁ → Chain x s rs₁ s₁ →
      instrs.foldlM (fun acc i =>
        (exec tgtIsAsm acc.1 i).map fun next => (next.1, acc.2 ++ next.2)) (s₁, rs₁) =
          some (s', rs) → Wf x s' ∧ Chain x s rs s' := by
    intro instrs
    induction instrs with
    | nil =>
      intro s₁ rs₁ wf chain run
      cases run
      exact ⟨wf, chain⟩
    | cons i instrs ih =>
      intro s₁ rs₁ wf chain run
      rw [List.foldlM_cons] at run
      obtain ⟨next, step, rest⟩ := Option.bind_eq_some_iff.1 run
      obtain ⟨⟨s₂, rs₂⟩, exec, same⟩ := Option.map_eq_some_iff.1 step
      cases same
      obtain ⟨wf', chain'⟩ := exec_chain wf exec
      exact ih s₂ (rs₁ ++ rs₂) wf' (chain.append chain') rest
  exact general instrs s [] wf .refl run

/-- The start of a block that was executed: its reads lead to its exit, and it follows the exits of
its predecessors. -/
structure Start (f : Function x) (blocks : Trace E) (k : Nat) (exit start : State E) : Prop where
  chain : Chain x start (blocks.reads k) exit
  preds : ∀ i, Edge f blocks i k → ∀ before, blocks.exit i = some before → Follows x before start

structure Executed (f : Function x) (s : State E) (blocks : Trace E) : Prop where
  wf : Wf x s
  exits : ∀ i exit, blocks.exit i = some exit → Wf x exit ∧ Grows x exit s
  starts : ∀ k exit, blocks.exit k = some exit → ∃ start, Start f blocks k exit start
  unreached : ∀ k, blocks.exit k = none → blocks.reads k = []

section

variable {blocks : Trace E} {entry : Option (State E) × List (Read E)} {i : Nat}

omit [DecidableEq E]

theorem exit_append_of_lt (below : i < blocks.length) :
    Trace.exit (blocks ++ [entry]) i = blocks.exit i := by
  unfold Trace.exit
  rw [List.getElem?_append_left below]

theorem reads_append_of_lt (below : i < blocks.length) :
    Trace.reads (blocks ++ [entry]) i = blocks.reads i := by
  unfold Trace.reads
  rw [List.getElem?_append_left below]

theorem exit_append_length : Trace.exit (blocks ++ [entry]) blocks.length = entry.1 := by
  unfold Trace.exit
  rw [List.getElem?_concat_length]
  rfl

theorem reads_append_length : Trace.reads (blocks ++ [entry]) blocks.length = entry.2 := by
  unfold Trace.reads
  rw [List.getElem?_concat_length]
  rfl

theorem unreached_append (unreached : ∀ k, blocks.exit k = none → blocks.reads k = [])
    (last : entry.1 = none → entry.2 = []) (k : Nat)
    (none : Trace.exit (blocks ++ [entry]) k = none) : Trace.reads (blocks ++ [entry]) k = [] := by
  rcases Nat.lt_trichotomy k blocks.length with below | rfl | beyond
  · rw [exit_append_of_lt below] at none
    rw [reads_append_of_lt below]
    exact unreached k none
  · rw [exit_append_length] at none
    rw [reads_append_length]
    exact last none
  · unfold Trace.reads
    rw [List.getElem?_eq_none (by rw [List.length_append, List.length_singleton]; exact beyond)]
    rfl

theorem lt_or_eq_of_exit {exit : State E} (found : Trace.exit (blocks ++ [entry]) i = some exit) :
    i < blocks.length ∨ i = blocks.length := by
  have inside : i < (blocks ++ [entry]).length := by
    by_contra beyond
    unfold Trace.exit at found
    rw [List.getElem?_eq_none (Nat.not_lt.1 beyond)] at found
    cases found
  rw [List.length_append, List.length_singleton] at inside
  exact Nat.lt_succ_iff_lt_or_eq.1 inside

theorem edge_of_append {f : Function x} {k : Nat} (inside : k ≤ blocks.length)
    (edge : Edge f (blocks ++ [entry]) i k) : Edge f blocks i k := by
  obtain ⟨less, jump, exit⟩ := edge
  rw [exit_append_of_lt (Nat.lt_of_lt_of_le less inside)] at exit
  exact ⟨less, jump, exit⟩

end

variable {f : Function x} {blocks : Trace E} {exit start : State E}

theorem Start.append {k : Nat}
    {entry : Option (State E) × List (Read E)} (h : Start f blocks k exit start)
    (inside : k < blocks.length) : Start f (blocks ++ [entry]) k exit start := by
  constructor
  · rw [reads_append_of_lt inside]
    exact h.chain
  · intro i edge before found
    rw [exit_append_of_lt (Nat.lt_trans edge.1 inside)] at found
    exact h.preds i (edge_of_append (Nat.le_of_lt inside) edge) before found

theorem Executed.skip (h : Executed f s blocks) : Executed f s (blocks ++ [(none, [])]) := by
  have old : ∀ {i exit}, Trace.exit (blocks ++ [(none, [])]) i = some exit →
      i < blocks.length ∧ blocks.exit i = some exit := by
    intro i exit found
    rcases lt_or_eq_of_exit found with below | rfl
    · exact ⟨below, (exit_append_of_lt below).symm.trans found⟩
    · cases exit_append_length.symm.trans found
  refine ⟨h.wf, fun i exit found => h.exits i exit (old found).2, fun k exit found => ?_,
    unreached_append h.unreached fun _ => rfl⟩
  obtain ⟨start, spec⟩ := h.starts k exit (old found).2
  exact ⟨start, spec.append (old found).1⟩

theorem Executed.block
    (h : Executed f s blocks) (grows : Grows x s start) (wf : Wf x s') (chain : Chain x start rs s')
    (preds : ∀ i, Edge f blocks i blocks.length → ∀ before, blocks.exit i = some before →
      Follows x before start) : Executed f s' (blocks ++ [(some s', rs)]) := by
  have later : Grows x s s' := grows.trans chain.follows.toGrows
  refine ⟨wf, fun i exit found => ?_, fun k exit found => ?_,
    unreached_append h.unreached fun none => by cases none⟩
  · rcases lt_or_eq_of_exit found with below | rfl
    · obtain ⟨wf', grows'⟩ := h.exits i exit ((exit_append_of_lt below).symm.trans found)
      exact ⟨wf', grows'.trans later⟩
    · cases exit_append_length.symm.trans found
      exact ⟨wf, .refl⟩
  · rcases lt_or_eq_of_exit found with below | rfl
    · obtain ⟨start', spec⟩ := h.starts k exit ((exit_append_of_lt below).symm.trans found)
      exact ⟨start', spec.append below⟩
    · cases exit_append_length.symm.trans found
      refine ⟨start, ?_, fun i edge before found' => ?_⟩
      · rw [reads_append_length]
        exact chain
      · rw [exit_append_of_lt edge.1] at found'
        exact preds i (edge_of_append (Nat.le_refl _) edge) before found'

theorem execBlock_executed {blocks' : Trace E} {b : Block x}
    (h : Executed f s blocks) (here : f[blocks.length]? = some b)
    (run : execBlock x tgtIsAsm (s, blocks) b = some (s', blocks')) :
    Executed f s' blocks' ∧ blocks'.length = blocks.length + 1 := by
  have length : ∀ entry, (blocks ++ [entry]).length = blocks.length + 1 := fun entry => by
    rw [List.length_append, List.length_singleton]
  unfold execBlock at run
  dsimp only at run
  cases blocks with
  | nil =>
    obtain ⟨after, exec, same⟩ := Option.map_eq_some_iff.1 run
    cases same
    obtain ⟨wf, chain⟩ := execInstrs_chain b.instrs h.wf exec
    exact ⟨h.block .refl wf chain fun i edge => absurd edge.1 (Nat.not_lt_zero i), length _⟩
  | cons first rest =>
    rw [List.isEmpty_cons, if_neg Bool.false_ne_true] at run
    cases begun : startBB x (first :: rest) s b.preds with
    | none =>
      rw [begun] at run
      cases run
      exact ⟨h.skip, length _⟩
    | some start =>
      rw [begun] at run
      obtain ⟨after, exec, same⟩ := Option.map_eq_some_iff.1 run
      cases same
      obtain ⟨wf, grows, preds⟩ := startBB_spec h.wf h.exits begun
      obtain ⟨wf', chain⟩ := execInstrs_chain b.instrs wf exec
      refine ⟨h.block grows wf' chain fun i edge before found => ?_, length _⟩
      obtain ⟨_, ⟨b', found', inside⟩, _⟩ := edge
      cases here.symm.trans found'
      exact preds i inside before found

theorem symExec_executed (run : symExec x tgtIsAsm f = some (s, blocks)) : Executed f s blocks := by
  have general : ∀ (rest : Function x) (s₀ : State E) (blocks₀ : Trace E),
      f.drop blocks₀.length = rest → Executed f s₀ blocks₀ →
      rest.foldlM (execBlock x tgtIsAsm) (s₀, blocks₀) = some (s, blocks) →
      Executed f s blocks := by
    intro rest
    induction rest with
    | nil =>
      intro s₀ blocks₀ _ executed run
      cases run
      exact executed
    | cons b rest ih =>
      intro s₀ blocks₀ split executed run
      rw [List.foldlM_cons] at run
      obtain ⟨⟨s₁, blocks₁⟩, step, run'⟩ := Option.bind_eq_some_iff.1 run
      have here : f[blocks₀.length]? = some b := by
        rw [← List.head?_drop, split, List.head?_cons]
      obtain ⟨executed', length⟩ := execBlock_executed executed here step
      refine ih s₁ blocks₁ ?_ executed' run'
      rw [length, ← List.tail_drop, split, List.tail_cons]
  refine general f State.initial [] rfl ⟨⟨?_, ?_, ?_, ?_⟩, ?_, ?_, fun _ _ => rfl⟩ run
  · exact fun _ _ found => by cases found
  · exact fun _ _ found => by cases found
  · exact List.forall_mem_nil _
  · exact fun _ _ found => by cases found
  · exact fun _ _ found => by cases found
  · exact fun _ _ found => by cases found

theorem follows_of_path (h : Executed f s blocks) {i j : Nat} {exit' : State E}
    (path : Relation.TransGen (Edge f blocks) i j) (before : blocks.exit i = some exit)
    (spec : Start f blocks j exit' start) : Follows x exit start := by
  induction path generalizing exit' start with
  | single edge => exact spec.preds i edge exit before
  | @tail b c path edge ih =>
    obtain ⟨middle, found⟩ := Option.isSome_iff_exists.1 edge.2.2
    obtain ⟨start', spec'⟩ := h.starts b middle found
    have first := ih spec'
    exact (first.trans spec'.chain.follows).trans (spec.preds b edge middle found)

def Earlier (f : Function x) (blocks : Trace E) (i k j k' : Nat) : Prop :=
  i = j ∧ k < k' ∨ Relation.TransGen (Edge f blocks) i j

end

section

variable {x : Exprs E D} [DecidableEq E]

def Recorded (x : Exprs E D) (p : Progress E) : Prop :=
  ∀ r ∈ p.reads, ∀ y ∈ r.undefVars x, y ∈ p.state.undefVars

variable {p p' : Progress E}

theorem Recorded.read (h : Recorded x p) {v : Val} {q : Bool} {e : E}
    (read : p.read x v q = some (p', e)) : Recorded x p' := by
  obtain ⟨⟨after, e'⟩, eval, same⟩ := Option.map_eq_some_iff.1 read
  cases same
  obtain ⟨kept, recorded⟩ := eval_recorded eval
  intro r member y inside
  rcases List.mem_append.1 member with old | new
  · exact kept y (h r old y inside)
  · rw [List.mem_singleton.1 new] at inside
    exact recorded y inside

theorem Recorded.step (h : Recorded x p) {a : Action}
    (keeps : a ≠ .resetUndefVars) (step : p.step x a = some p') : Recorded x p' := by
  cases a with
  | eval v quantifyNondet =>
    obtain ⟨⟨after, e⟩, read, same⟩ := Option.map_eq_some_iff.1 step
    cases same
    have reads : Recorded x after := h.read read
    exact reads
  | getAndAddPoisonUB v undefUBToo marked =>
    obtain ⟨⟨after, e⟩, read, same⟩ := Option.map_eq_some_iff.1 step
    cases same
    have reads : Recorded x after := h.read read
    unfold Progress.addPoisonUB
    dsimp only
    split
    · exact reads
    · exact reads
  | addUndefVar =>
    cases step
    exact fun r member y inside => List.mem_append_left _ (h r member y inside)
  | addNonDetVar =>
    cases step
    exact h
  | resetUndefVars => exact absurd rfl keeps

theorem Recorded.steps (actions : List Action) (h : Recorded x p)
    (keeps : .resetUndefVars ∉ actions)
    (steps : actions.foldlM (Progress.step x) p = some p') : Recorded x p' := by
  induction actions generalizing p with
  | nil =>
    cases steps
    exact h
  | cons a actions ih =>
    rw [List.foldlM_cons] at steps
    obtain ⟨next, step, rest⟩ := Option.bind_eq_some_iff.1 steps
    rw [List.mem_cons, not_or] at keeps
    exact ih (h.step (Ne.symm keeps.1) step) keeps.2 rest

theorem exec_recorded {tgtIsAsm : Bool} {s s' : State E} {i : Instr x} {rs : List (Read E)}
    (keeps : .resetUndefVars ∉ i.actions) (run : exec tgtIsAsm s i = some (s', rs)) :
    ∃ t, s'.values i.v = some t ∧ ∀ r ∈ rs, ∀ y ∈ r.undefVars x, y ∈ t.undefVars := by
  unfold exec at run
  split at run
  · cases run
  · obtain ⟨p, steps, same⟩ := Option.map_eq_some_iff.1 run
    cases same
    have start : Recorded x ⟨s, [], [], []⟩ := List.forall_mem_nil _
    exact ⟨_, Function.update_self _ _ _, start.steps i.actions keeps steps⟩

end

/-- Two reads of a value on a path use different undef variables, and take every pair of its values
unless it was forced to be non-undef; the variables of the reads of an instruction are recorded for
its value unless it resets them. -/
theorem reads_independent (x : Exprs E D) [DecidableEq E] (tgtIsAsm : Bool) (f : Function x)
    (s : State E) (blocks : Trace E) (run : symExec x tgtIsAsm f = some (s, blocks)) :
    (∀ i k j k' r₁ r₂, (blocks.reads i)[k]? = some r₁ → (blocks.reads j)[k']? = some r₂ →
      Earlier f blocks i k j k' → r₁.v = r₂.v →
      List.Disjoint (r₁.undefVars x) (r₂.undefVars x) ∧
        (r₁.forced = false → r₂.forced = false → AllPairs x r₁ r₂)) ∧
    (∀ s (i : Instr x) s' rs, exec tgtIsAsm s i = some (s', rs) → .resetUndefVars ∉ i.actions →
      ∃ t, s'.values i.v = some t ∧ ∀ r ∈ rs, ∀ y ∈ r.undefVars x, y ∈ t.undefVars) := by
  refine ⟨fun i k j k' r₁ r₂ found₁ found₂ earlier same => ?_,
    fun s i s' rs exec keeps => exec_recorded keeps exec⟩
  have executed := symExec_executed run
  have exits : ∀ {j k : Nat} {r : Read E}, (blocks.reads j)[k]? = some r →
      ∃ exit start, blocks.exit j = some exit ∧ Start f blocks j exit start := by
    intro j k r found
    cases exit : blocks.exit j with
    | none =>
      rw [executed.unreached j exit] at found
      cases found
    | some exit' =>
      obtain ⟨start, spec⟩ := executed.starts j exit' exit
      exact ⟨exit', start, rfl, spec⟩
  obtain ⟨exit₁, start₁, before, spec₁⟩ := exits found₁
  obtain ⟨exit₂, start₂, _, spec₂⟩ := exits found₂
  obtain ⟨wf₁, _, after₁, t₁, e₁, first, rest⟩ := spec₁.chain.at found₁
  obtain ⟨wf₂, follows₂, after₂, t₂, e₂, second, _⟩ := spec₂.chain.at found₂
  have follows : Follows x after₁ r₂.before := by
    rcases earlier with ⟨rfl, less⟩ | path
    · have later : ((blocks.reads i).drop (k + 1))[k' - (k + 1)]? = some r₂ := by
        rw [List.getElem?_drop, Nat.add_sub_cancel' less]
        exact found₂
      exact (rest.at later).2.1
    · exact (rest.follows.trans (follows_of_path executed path before spec₂)).trans follows₂
  exact ⟨first.disjoint follows second same,
    first.allPairs wf₁ follows second same⟩

namespace Fixed

/-- Zero, or a variable. -/
def exprs : Exprs (Option Var) Nat where
  vars := Option.toList
  subst := fun e f => e.map f
  eval := fun e ρ => (e.map ρ).getD 0
  asNonPoison := id
  withValue := fun _ e => e
  strip := fun _ _ => none
  meetNonUndef := fun a b v => if a v = b v then a v else none
  eval_congr := by
    intro e ρ ρ' agree
    cases e with
    | none => rfl
    | some y => exact agree y (List.mem_singleton.2 rfl)
  eval_subst := by
    intro e f ρ
    cases e <;> rfl
  vars_subst := by
    intro e f y member
    cases e with
    | none => exact absurd member List.not_mem_nil
    | some y' => exact ⟨y', List.mem_singleton.2 rfl, List.mem_singleton.1 member⟩
  eval_asNonPoison := fun _ _ => rfl
  vars_asNonPoison := fun _ _ member => member
  vars_withValue := fun _ _ _ member => .inr member
  vars_strip := fun _ _ _ member => absurd member List.not_mem_nil
  meetNonUndef_left := by
    intro a b v e found
    split at found
    · exact found
    · cases found

def instr (v : Val) (actions : List Action) : Instr exprs where
  v := v
  actions := actions
  build := fun es us => us.head?.or (es.head?.getD none)
  vars_build := by
    intro es us y member
    have value := Option.mem_toList.1 member
    cases us with
    | cons u us =>
      cases value
      exact .inr (.inl List.mem_cons_self)
    | nil =>
      cases es with
      | nil => cases value
      | cons e es => exact .inl ⟨e, List.mem_cons_self, member⟩

def undef : Instr exprs := instr 0 [.addUndefVar]

def copy (v : Val) : Instr exprs := instr v [.eval 0 false]

def freeze (v : Val) : Instr exprs := instr v [.eval 0 false, .resetUndefVars]

def twice : Function exprs := [⟨[], [undef, copy 1]⟩, ⟨[0], [copy 2]⟩]

def twiceRun : State (Option Var) × Trace (Option Var) :=
  (symExec exprs false twice).getD (State.initial, [])

end Fixed

theorem reads_independent_twice :
    ∃ r₁ r₂, r₁.v = 0 ∧ r₂.v = 0 ∧
      List.Disjoint (r₁.undefVars Fixed.exprs) (r₂.undefVars Fixed.exprs) ∧
      AllPairs Fixed.exprs r₁ r₂ := by
  have run : symExec Fixed.exprs false Fixed.twice =
    some (Fixed.twiceRun.1, Fixed.twiceRun.2) := rfl
  have edge : Edge Fixed.twice Fixed.twiceRun.2 0 1 :=
    ⟨Nat.zero_lt_one, ⟨_, rfl, List.mem_cons_self⟩, rfl⟩
  have reads := (reads_independent Fixed.exprs false Fixed.twice _ _ run).1 0 0 1 0 _ _ rfl rfl
    (.inr (.single edge)) rfl
  exact ⟨_, _, rfl, rfl, reads.1, reads.2 rfl rfl⟩

/-- The variable that a freeze introduces for its read is not one of its value. -/
theorem freeze_not_recorded :
    ((symExec Fixed.exprs false [⟨[], [Fixed.undef, Fixed.copy 1, Fixed.freeze 2]⟩]).map
      fun after => ((after.2.reads 0).map fun r => r.undefVars Fixed.exprs,
        (after.1.values 2).map ValTy.undefVars)) =
      some ([[.fresh 0], [.fresh 1]], some []) := by
  rfl

end AliveNext.IR.UndefReads
