import Mathlib

/-!
# Reads of values with undef variables

`State::eval`, `State::exec`, `ValueAnalysis::meet_with` and the loop over the blocks of a function
(`ir/state.cpp`, `util/symexec.cpp`), as far as the variables that stand for undef go.
-/

namespace AliveNext.IR.UndefReads

/-- A variable of the program, or one that `mkFreshVar` makes. -/
inductive Var where
  | named (n : Nat)
  | fresh (n : Nat)
  deriving DecidableEq

def Var.Below (n : Nat) : Var → Prop
  | .named _ => True
  | .fresh i => i < n

abbrev Val := Nat

/-- The pairs of a value and its non-poison condition, with what the state does to them; `eval` is
the value. -/
structure Exprs (E D : Type) where
  vars : E → List Var
  subst : E → (Var → Var) → E
  eval : E → (Var → D) → D
  asNonPoison : E → E
  withValue : E → E → E
  strip : E → List Var → E
  meetNonUndef : (Val → Option E) → (Val → Option E) → Val → Option E
  eval_congr : ∀ e ρ ρ', (∀ x ∈ vars e, ρ x = ρ' x) → eval e ρ = eval e ρ'
  eval_subst : ∀ e f ρ, eval (subst e f) ρ = eval e fun x => ρ (f x)
  vars_subst : ∀ e f, ∀ x ∈ vars (subst e f), ∃ y ∈ vars e, x = f y
  eval_asNonPoison : ∀ e ρ, eval (asNonPoison e) ρ = eval e ρ
  vars_asNonPoison : ∀ e, ∀ x ∈ vars (asNonPoison e), x ∈ vars e
  vars_withValue : ∀ e e', ∀ x ∈ vars (withValue e e'), x ∈ vars e ∨ x ∈ vars e'
  vars_strip : ∀ e us, ∀ x ∈ vars (strip e us), x ∈ vars e ∨ ∃ n, x = .named n
  meetNonUndef_left : ∀ a b v e, meetNonUndef a b v = some e → a v = some e

variable {E D : Type} [DecidableEq E]

structure ValTy (E : Type) where
  val : E
  undefVars : List Var

/-- `ValueAnalysis`. -/
structure Analysis (E : Type) where
  nonPoison : List Val
  nonUndef : Val → Option E
  unused : List Val

structure State (E : Type) where
  values : Val → Option (ValTy E)
  undefVars : List Var
  quantified : List Var
  nondetVars : List Var
  analysis : Analysis E
  nextFresh : Nat

/-- The loop of `std::set_intersection`, which `intersect_set` also runs over hash sets, in their
own order. -/
def setIntersection : List Val → List Val → List Val
  | a :: as, b :: bs =>
    if a < b then setIntersection as (b :: bs)
    else if b < a then setIntersection (a :: as) bs
    else a :: setIntersection as bs
  | [], _ => []
  | _ :: _, [] => []

/-- `ValueAnalysis::meet_with`. -/
def Analysis.meetWith (x : Exprs E D) (a b : Analysis E) : Analysis E where
  nonPoison := setIntersection a.nonPoison b.nonPoison
  nonUndef := x.meetNonUndef a.nonUndef b.nonUndef
  unused := setIntersection a.unused b.unused

def rename (next : Nat) (repls : List Var) (x : Var) : Var :=
  if x ∈ repls then .fresh (next + repls.idxOf x) else x

def freshVars (next count : Nat) : List Var := (List.range' next count).map Var.fresh

namespace State

variable (x : Exprs E D)

/-- The non-poison part of `simplify`. -/
def simplify (s : State E) (v : Val) (e : E) : E :=
  if v ∈ s.analysis.nonPoison then x.asNonPoison e else e

def repls (s : State E) (t : ValTy E) (quantifyNondet : Bool) : List Var :=
  t.undefVars ++
    if quantifyNondet then (x.vars t.val).filter fun y => decide (y ∈ s.nondetVars) else []

def usesOwn (s : State E) (v : Val) (t : ValTy E) : Bool :=
  decide (t.undefVars = []) || decide (v ∈ s.analysis.unused)

/-- `State::eval`: the state after it, and what it returns. There is no caller of
`startParsingPre`, so `disable_undef_rewrite` is never set. -/
def eval (s : State E) (v : Val) (quantifyNondet : Bool) : Option (State E × E) :=
  match s.values v with
  | none => none
  | some t =>
    match s.analysis.nonUndef v with
    | some stripped => some
        ({ s with quantified := s.quantified ++ t.undefVars },
          s.simplify x v (x.withValue t.val stripped))
    | none =>
      if s.usesOwn v t then some
        ({ s with
            undefVars := s.undefVars ++ t.undefVars
            analysis := { s.analysis with
              unused := s.analysis.unused.filter fun w => decide (w ≠ v) } },
          s.simplify x v t.val)
      else
        let repls := s.repls x t quantifyNondet
        let svalNew := x.subst t.val (rename s.nextFresh repls)
        let after := { s with
          nextFresh := s.nextFresh + repls.length
          nondetVars := s.nondetVars ++
            (freshVars s.nextFresh repls.length).drop t.undefVars.length }
        if svalNew = t.val then some
          ({ after with
              values := Function.update s.values v (some { t with undefVars := [] }) },
            s.simplify x v t.val)
        else some
          ({ after with undefVars := s.undefVars ++ freshVars s.nextFresh t.undefVars.length },
            s.simplify x v svalNew)

end State

/-- What `toSMT` asks the state for. -/
inductive Action where
  | eval (v : Val) (quantifyNondet : Bool)
  | getAndAddPoisonUB (v : Val) (undefUBToo : Bool) (marked : List Val)
  | addUndefVar
  | addNonDetVar
  | resetUndefVars
  deriving DecidableEq

structure Read (E : Type) where
  before : State E
  v : Val
  quantifyNondet : Bool

namespace Read

variable (x : Exprs E D) (r : Read E)

def forced : Bool := (r.before.analysis.nonUndef r.v).isSome

/-- The undef variables that `State::eval` uses. -/
def undefVars : List Var :=
  match r.before.values r.v with
  | none => []
  | some t =>
    if r.forced then []
    else if r.before.usesOwn r.v t then t.undefVars
    else if x.subst t.val
        (rename r.before.nextFresh (r.before.repls x t r.quantifyNondet)) = t.val then []
    else freshVars r.before.nextFresh t.undefVars.length

/-- What `State::eval` returns. -/
def result : Option E := (r.before.eval x r.v r.quantifyNondet).map Prod.snd

end Read

/-- The state in the middle of a `toSMT`, with the reads so far, the expressions that they gave and
the variables that were introduced. -/
structure Progress (E : Type) where
  state : State E
  reads : List (Read E)
  exprs : List E
  introduced : List Var

namespace Progress

variable (x : Exprs E D)

def read (p : Progress E) (v : Val) (quantifyNondet : Bool) : Option (Progress E × E) :=
  (p.state.eval x v quantifyNondet).map fun (s, e) =>
    ({ p with state := s, reads := p.reads ++ [⟨p.state, v, quantifyNondet⟩] }, e)

def introduce (p : Progress E) (update : State E → Var → State E) : Progress E :=
  let var := Var.fresh p.state.nextFresh
  { p with
    state := update { p.state with nextFresh := p.state.nextFresh + 1 } var
    introduced := p.introduced ++ [var] }

/-- `getAndAddPoisonUB` after its read. -/
def addPoisonUB (p : Progress E) (v : Val) (undefUBToo : Bool) (marked : List Val) (sv : E) :
    Progress E :=
  let a := p.state.analysis
  let already := decide (v ∈ a.nonPoison)
  if already && !undefUBToo then { p with exprs := p.exprs ++ [sv] }
  else
    let value := if undefUBToo then (a.nonUndef v).getD (x.strip sv p.state.undefVars) else sv
    let nonUndef := if undefUBToo then Function.update a.nonUndef v (some value) else a.nonUndef
    { p with
      state := { p.state with analysis := { a with
        nonPoison := if already then a.nonPoison else v :: marked ++ a.nonPoison
        nonUndef := nonUndef } }
      exprs := p.exprs ++ [x.asNonPoison (x.withValue sv value)] }

def step (p : Progress E) : Action → Option (Progress E)
  | .eval v quantifyNondet => (p.read x v quantifyNondet).map fun (p, e) =>
    { p with exprs := p.exprs ++ [e] }
  | .getAndAddPoisonUB v undefUBToo marked => (p.read x v false).map fun (p, sv) =>
    p.addPoisonUB x v undefUBToo marked sv
  | .addUndefVar => some (p.introduce fun s var => { s with undefVars := s.undefVars ++ [var] })
  | .addNonDetVar => some (p.introduce fun s var => { s with nondetVars := s.nondetVars ++ [var] })
  | .resetUndefVars => some { p with state := { p.state with
      quantified := p.state.quantified ++ p.state.undefVars
      undefVars := [] } }

end Progress

/-- An instruction, input or constant: what its `toSMT` does, and the value that it builds from what
it reads and introduces. -/
structure Instr (x : Exprs E D) where
  v : Val
  actions : List Action
  build : List E → List Var → E
  vars_build : ∀ es us, ∀ y ∈ x.vars (build es us),
    (∃ e ∈ es, y ∈ x.vars e) ∨ y ∈ us ∨ ∃ n, y = .named n

/-- `State::exec`: the state after it, and its reads. -/
def exec {x : Exprs E D} (tgtIsAsm : Bool) (s : State E) (i : Instr x) :
    Option (State E × List (Read E)) :=
  if s.undefVars ≠ [] ∨ (s.values i.v).isSome then none
  else
    (i.actions.foldlM (Progress.step x) ⟨s, [], [], []⟩).map fun p =>
      ({ p.state with
          values := Function.update p.state.values i.v
            (some ⟨i.build p.exprs p.introduced, p.state.undefVars⟩)
          undefVars := []
          analysis := { p.state.analysis with
            unused := if tgtIsAsm then p.state.analysis.unused
              else i.v :: p.state.analysis.unused } },
        p.reads)

structure Block (x : Exprs E D) where
  preds : List Nat
  instrs : List (Instr x)

abbrev Function (x : Exprs E D) := List (Block x)

abbrev Trace (E : Type) := List (Option (State E) × List (Read E))

def Trace.exit (blocks : Trace E) (i : Nat) : Option (State E) := blocks[i]?.bind Prod.fst

def Trace.reads (blocks : Trace E) (i : Nat) : List (Read E) :=
  (blocks[i]?.map Prod.snd).getD []

section

variable (x : Exprs E D) (tgtIsAsm : Bool)

def execInstrs (s : State E) (instrs : List (Instr x)) : Option (State E × List (Read E)) :=
  instrs.foldlM (fun acc i =>
    (exec tgtIsAsm acc.1 i).map fun next => (next.1, acc.2 ++ next.2)) (s, [])

/-- `State::startBB`: the values and variables so far, with the meet of what the predecessors
know. -/
def startBB (blocks : Trace E) (s : State E) (preds : List Nat) : Option (State E) :=
  match preds.filterMap blocks.exit with
  | [] => none
  | first :: rest => some { s with
      analysis := rest.foldl (fun a pred => a.meetWith x pred.analysis) first.analysis }

/-- A block after the ones before it: the last state, and the trace. A block that is not reached is
left out; the first one also has the constants and inputs. -/
def execBlock (acc : State E × Trace E) (b : Block x) : Option (State E × Trace E) :=
  match if acc.2.isEmpty then some acc.1 else startBB x acc.2 acc.1 b.preds with
  | none => some (acc.1, acc.2 ++ [(none, [])])
  | some start => (execInstrs x tgtIsAsm start b.instrs).map fun after =>
    (after.1, acc.2 ++ [(some after.1, after.2)])

def State.initial : State E where
  values := fun _ => none
  undefVars := []
  quantified := []
  nondetVars := []
  analysis := ⟨[], fun _ => none, []⟩
  nextFresh := 0

def symExec (f : Function x) : Option (State E × Trace E) :=
  f.foldlM (execBlock x tgtIsAsm) (State.initial, [])

end

end AliveNext.IR.UndefReads
