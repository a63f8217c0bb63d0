import AliveNext.Util.ParallelProgress

/-!
# The tokens of the job server

With the manager `fifo` a process takes a token from a pipe before it forks, hands it to the
child, and gets its own back for as long as it waits for its children. The children run
`TVLegacyPass::verify` of `tv/tv.cpp` from the fork on; the signal handler for their timeout may
run between any two steps until the signal is ignored.
-/

namespace AliveNext.Util.JobTokens

open LLVM (Text)

/-! ## What a child verifies -/

/-- The options in use. `timeout` tells whether `subprocess_timeout` is set, and `hasFailure` is
the flag `has_failure` as the children inherit it. -/
structure Options where
  quiet : Bool
  exitOnError : Bool
  timeout : Bool
  maxActiveChildren : Nat
  hasFailure : Bool

/-- A transformation, and what comes of its verification. -/
structure Job where
  print : Text
  typed : Bool
  warnings : List Text
  errs : List (Text × Bool)
  passName : Text
  commandLine : Text
  bitcode : Option Text
  stats : Text

namespace Job

/-- `Errors::isUnsound`. -/
def isUnsound (job : Job) : Bool := job.errs.any Prod.snd

/-- `Errors::printWarnings`. -/
def printWarnings (job : Job) : Text :=
  job.warnings.flatMap fun str =>
    "\n****************************************\nWARNING: ".toList ++ str ++
      "\n****************************************\n\n".toList

/-- `operator<<` for `Errors`. -/
def printErrors (job : Job) : Text :=
  job.errs.flatMap fun err => "ERROR: ".toList ++ err.1 ++ ['\n']

/-- `t.print(*out)` under a condition. -/
def printIf (job : Job) (condition : Bool) : Text :=
  if condition then job.print else []

def illTyped (o : Options) (job : Job) : Text :=
  job.printIf o.quiet ++
    "Transformation doesn't verify!\nERROR: program doesn't type check!\n\n".toList

def correct (o : Options) : Text :=
  if o.quiet then [] else "Transformation seems to be correct!\n\n".toList

def refuted (o : Options) (job : Job) : Text :=
  job.printIf o.quiet ++ "Transformation doesn't verify!".toList ++
    (if job.isUnsound then " (unsound)\n".toList else " (not unsound)\n".toList) ++
    job.printErrors ++ "\nPass: ".toList ++ job.passName ++ ['\n'] ++ job.commandLine ++ ['\n'] ++
    match job.isUnsound, job.bitcode with
    | true, some file => "Wrote bitcode to: ".toList ++ file ++ ['\n']
    | _, _ => []

end Job

/-- The message of `finishChild` in the signal handler. -/
def timeoutMessage : Text := "ERROR: Timeout asynchronous\n\n".toList

/-! ## A child -/

/-- Where a child is: before the alarm is set; up to `getTypings`; up to the errors; in
`finalize`, before and after the token is put back; at the label `done`; in `finishChild`, before
and after the token is put back, with the text that is still to be written. -/
inductive At where
  | forked
  | checking
  | verifying
  | finalizing
  | joining
  | done
  | finishing
  | writing (rest : Text)
  | exited
  | aborted
  deriving DecidableEq

def At.ended : At → Bool
  | .exited | .aborted => true
  | _ => false

/-- Whether `SIGALRM` runs `sigalarm_handler` here, once the alarm is set. -/
def At.interruptible : At → Bool
  | .checking | .verifying | .finalizing | .joining | .done => true
  | _ => false

/-- A child: the tokens it holds, the stream it prints to, how often it has called `finishChild`,
and what it has written to the pipe. -/
structure Child where
  job : Job
  place : At := .forked
  held : Nat := 1
  output : Text := []
  hasFailure : Bool
  timedOut : Bool := false
  finishes : Nat := 0
  sent : Text := []

namespace Child

def print (c : Child) (text : Text) (place : At) : Child :=
  { c with output := c.output ++ text, place := place }

def report (c : Child) : Text :=
  if c.timedOut then timeoutMessage else c.output

/-- `fifo::putToken` in the child. -/
def put (c : Child) (place : At) : Child :=
  { c with held := c.held - 1, place := place }

/-- The branch of `verify` for errors, which leads to `finalize` if the first failure is fatal. -/
def refute (o : Options) (c : Child) : Child :=
  let hasFailure := c.hasFailure || c.job.isUnsound
  let next := if o.exitOnError && hasFailure then At.finalizing else At.done
  { c.print (c.job.printWarnings ++ c.job.refuted o) next with hasFailure := hasFailure }

inductive Step (o : Options) : Child → Nat → Child → Prop where
  | start {c : Child} (here : c.place = .forked) : Step o c 0 { c with place := .checking }
  | noTyping {c : Child} (here : c.place = .checking) (untyped : c.job.typed = false) :
      Step o c 0 (c.print (c.job.printIf (!o.quiet) ++ c.job.illTyped o) .done)
  | typing {c : Child} (here : c.place = .checking)
      (typed : c.job.typed = true) : Step o c 0 (c.print (c.job.printIf (!o.quiet)) .verifying)
  | correct {c : Child} (here : c.place = .verifying) (noErrors : c.job.errs = []) :
      Step o c 0 (c.print (c.job.printWarnings ++ Job.correct o) .done)
  | refuted {c : Child} (here : c.place = .verifying)
      (errors : c.job.errs ≠ []) : Step o c 0 (c.refute o)
  -- `fifo::finishParent`, called by a child.
  | joins {c : Child} (here : c.place = .finalizing) : Step o c 1 (c.put .joining)
  -- The assertion of `ensureParent`.
  | notParent {c : Child} (here : c.place = .joining) : Step o c 0 { c with place := .aborted }
  | finish {c : Child} (here : c.place = .done) :
      Step o c 0 { c.print c.job.stats .finishing with finishes := c.finishes + 1 }
  | alarm {c : Child} (set : o.timeout = true) (here : c.place.interruptible = true) :
      Step o c 0 { c with place := .finishing, timedOut := true, finishes := c.finishes + 1 }
  | putToken {c : Child} (here : c.place = .finishing) : Step o c 1 (c.put (.writing c.report))
  -- A turn of the loop of `safe_write`.
  | write {c : Child} (chunk rest : Text) (here : c.place = .writing (chunk ++ rest))
      (some_ : chunk ≠ []) :
      Step o c 0 { c with place := .writing rest, sent := c.sent ++ chunk }
  | exit {c : Child} (here : c.place = .writing []) : Step o c 0 { c with place := .exited }

end Child

/-! ## The system -/

/-- Where the root process is: in LLVM, in `limitedFork` with a token for the child, in
`parallel::finishParent`, or after it. -/
inductive Root where
  | running
  | forking
  | joining
  | returning
  deriving DecidableEq

structure System where
  fifo : Nat
  control : Root := .running
  held : Nat := 1
  children : List Child := []

/-- The tokens that `main` of `tools/alive-jobserver.cpp` puts into the pipe: one fewer if it
executes a command, which gets one for free. -/
def initialTokens (nprocs : Nat) (command : Bool) : Nat :=
  if command then nprocs - 1 else nprocs

def start (nprocs : Nat) : System where
  fifo := initialTokens nprocs true

/-- `fork` in `limitedFork`: the second token of the root is the child's. -/
def Job.child (o : Options) (job : Job) : Child where
  job := job
  hasFailure := o.hasFailure

/-- One step of the root or of a child. -/
inductive Step (o : Options) (jobs : Nat → Job) : System → System → Prop where
  | takeToken {s : System} (here : s.control = .running)
      (few : s.children.countP (!·.place.ended) < o.maxActiveChildren)
      (token : 0 < s.fifo) :
      Step o jobs s { s with control := .forking, fifo := s.fifo - 1, held := s.held + 1 }
  | fork {s : System} (here : s.control = .forking) : Step o jobs s
        { s with
          control := .running
          held := s.held - 1
          children := s.children ++ [(jobs s.children.length).child o] }
  | finishParent {s : System} (here : s.control = .running) :
      Step o jobs s { s with control := .joining, fifo := s.fifo + 1, held := s.held - 1 }
  | joined {s : System} (here : s.control = .joining)
      (ended : ∀ c ∈ s.children, c.place.ended = true) :
      Step o jobs s { s with control := .returning }
  | getToken {s : System} (here : s.control = .returning) (token : 0 < s.fifo) :
      Step o jobs s { s with control := .running, fifo := s.fifo - 1, held := s.held + 1 }
  | child {s : System} {i put : Nat} {c c' : Child} (found : s.children[i]? = some c)
      (step : c.Step o put c') :
      Step o jobs s { s with fifo := s.fifo + put, children := s.children.set i c' }

def Reachable (o : Options) (jobs : Nat → Job) (nprocs : Nat) (s : System) : Prop :=
  Relation.ReflTransGen (Step o jobs) (start nprocs) s

namespace System

def holders (s : System) : Nat :=
  (if 0 < s.held then 1 else 0) + s.children.countP (0 < ·.held)

def tokens (s : System) : Nat :=
  s.fifo + s.held + (s.children.map Child.held).sum

/-- No token is lost or made. -/
structure Conserved (nprocs : Nat) (s : System) : Prop where
  tokens : s.tokens = nprocs
  holders : s.fifo + s.holders + (if s.control = .forking then 1 else 0) = nprocs

end System

/-- The child calls `finishChild` at most once, and exactly once when it has ended; then its token
is back and its report is in the pipe. -/
structure Child.FinishesOnce (c : Child) : Prop where
  atMost : c.finishes ≤ 1
  ended : c.place.ended = true → c.finishes = 1 ∧ c.held = 0 ∧ c.sent = c.report

/-- The child is led to `finalize`, which is for the parent. -/
def Job.fatal (o : Options) (job : Job) : Bool :=
  job.typed && !job.errs.isEmpty && o.exitOnError && (o.hasFailure || job.isUnsound)

namespace Child

variable {o : Options} {c c' : Child} {put : Nat}

/-- What holds of a child at each place, as long as it does not get to `finalize`. -/
structure Ok (o : Options) (c : Child) : Prop where
  notFatal : c.job.fatal o = false
  held : c.held = match c.place with
    | .writing _ | .exited => 0
    | _ => 1
  finishes : c.finishes = match c.place with
    | .finishing | .writing _ | .exited => 1
    | _ => 0
  sent : match c.place with
    | .writing rest => c.sent ++ rest = c.report
    | .exited => c.sent = c.report
    | _ => c.sent = []
  hasFailure : c.place = .forked ∨ c.place = .checking ∨ c.place = .verifying →
    c.hasFailure = o.hasFailure
  typed : c.place = .verifying → c.job.typed = true
  away : c.place ≠ .finalizing ∧ c.place ≠ .joining ∧ c.place ≠ .aborted

theorem Ok.child {job : Job} (notFatal : job.fatal o = false) : Ok o (job.child o) :=
  ⟨notFatal, rfl, rfl, rfl, fun _ => rfl, by simp [Job.child], by simp [Job.child]⟩

theorem Ok.refute_place (ok : Ok o c) (here : c.place = .verifying)
    (errors : c.job.errs ≠ []) : (c.refute o).place = .done := by
  have notFatal := ok.notFatal
  have some_ : c.job.errs.isEmpty = false := by
    rw [← Bool.not_eq_true, List.isEmpty_iff]
    exact errors
  rw [Job.fatal, ok.typed here, some_, ← ok.hasFailure (.inr (.inr here))] at notFatal
  show (if o.exitOnError && (c.hasFailure || c.job.isUnsound) then At.finalizing else At.done) = _
  rw [show (o.exitOnError && (c.hasFailure || c.job.isUnsound)) = false by simpa using notFatal]
  rfl

theorem Ok.step
    (ok : Ok o c) (step : Step o c put c') : Ok o c' ∧ c'.job = c.job ∧ c'.held + put = c.held := by
  obtain ⟨notFatal, held, finishes, sent, hasFailure, typed, away⟩ := ok
  cases step with
  | start here =>
    rw [here] at held finishes sent
    exact ⟨⟨notFatal, held, finishes, sent, fun _ => hasFailure (.inl here), by simp, by simp⟩,
      rfl, rfl⟩
  | noTyping here untyped =>
    rw [here] at held finishes sent
    exact ⟨⟨notFatal, held, finishes, sent, by simp [print], by simp [print], by simp [print]⟩,
      rfl, rfl⟩
  | typing here isTyped =>
    rw [here] at held finishes sent
    exact ⟨⟨notFatal, held, finishes, sent, fun _ => hasFailure (.inr (.inl here)),
      fun _ => isTyped, by simp [print]⟩, rfl, rfl⟩
  | correct here noErrors =>
    rw [here] at held finishes sent
    exact ⟨⟨notFatal, held, finishes, sent, by simp [print], by simp [print], by simp [print]⟩,
      rfl, rfl⟩
  | refuted here errors =>
    have place := Ok.refute_place ⟨notFatal, held, finishes, sent, hasFailure, typed, away⟩ here
      errors
    rw [here] at held finishes sent
    refine ⟨⟨notFatal, ?_, ?_, ?_, ?_, ?_, ?_⟩, rfl, rfl⟩
    · rw [place]
      exact held
    · rw [place]
      exact finishes
    · rw [place]
      exact sent
    · simp [place]
    · simp [place]
    · simp [place]
  | joins here => exact absurd here away.1
  | notParent here => exact absurd here away.2.1
  | finish here =>
    rw [here] at held finishes sent
    exact ⟨⟨notFatal, held, congrArg (· + 1) finishes, sent, by simp [print], by simp [print],
      by simp [print]⟩, rfl, rfl⟩
  | alarm set here =>
    cases place : c.place with
    | checking | verifying | done =>
      rw [place] at held finishes sent
      exact ⟨⟨notFatal, held, congrArg (· + 1) finishes, sent, by simp, by simp, by simp⟩,
        rfl, rfl⟩
    | finalizing => exact absurd place away.1
    | joining => exact absurd place away.2.1
    | _ =>
      rw [place] at here
      cases here
  | putToken here =>
    rw [here] at held finishes sent
    have one : c.held = 1 := held
    refine ⟨⟨notFatal, ?_, finishes, ?_, by simp [Child.put], by simp [Child.put],
      by simp [Child.put]⟩, rfl, ?_⟩
    · show c.held - 1 = 0
      rw [one]
    · show c.sent ++ c.report = c.report
      rw [sent, List.nil_append]
    · show c.held - 1 + 1 = c.held
      rw [one]
  | write chunk rest here some_ =>
    rw [here] at held finishes sent
    refine ⟨⟨notFatal, held, finishes, ?_, by simp, by simp, by simp⟩, rfl, rfl⟩
    show c.sent ++ chunk ++ rest = c.report
    rw [List.append_assoc]
    exact sent
  | exit here =>
    rw [here] at held finishes sent
    refine ⟨⟨notFatal, held, finishes, ?_, by simp, by simp, by simp⟩, rfl, rfl⟩
    show c.sent = c.report
    rw [← sent, List.append_nil]

theorem Ok.finishesOnce (ok : Ok o c) : c.FinishesOnce := by
  obtain ⟨-, held, finishes, sent, -, -, away⟩ := ok
  constructor
  · rw [finishes]
    split <;> decide
  · intro ended
    cases place : c.place with
    | exited =>
      rw [place] at held finishes sent
      exact ⟨finishes, held, sent⟩
    | aborted => exact absurd place away.2.2
    | _ =>
      rw [place] at ended
      cases ended

end Child

namespace System

variable {o : Options} {jobs : Nat → Job} {nprocs : Nat} {s t : System}

/-- The tokens are conserved, the root holds its own where it runs, and no child is fatal. -/
structure Ok (o : Options) (nprocs : Nat) (s : System) : Prop where
  tokens : s.tokens = nprocs
  held : s.held = match s.control with
    | .running => 1
    | .forking => 2
    | .joining | .returning => 0
  children : ∀ c ∈ s.children, c.Ok o

theorem Ok.start (positive : 1 ≤ nprocs) : Ok o nprocs (start nprocs) := by
  refine ⟨?_, rfl, by simp [JobTokens.start]⟩
  simp [System.tokens, JobTokens.start, initialTokens, positive]

theorem Ok.step (ok : Ok o nprocs s)
    (notFatal : s.control = .forking → (jobs s.children.length).fatal o = false)
    (step : Step o jobs s t) : Ok o nprocs t := by
  obtain ⟨tokens, held, children⟩ := ok
  unfold System.tokens at tokens
  cases step with
  | takeToken here few token =>
    rw [here] at held
    refine ⟨?_, congrArg (· + 1) held, children⟩
    show s.fifo - 1 + (s.held + 1) + (s.children.map Child.held).sum = nprocs
    omega
  | fork here =>
    rw [here] at held
    have two : s.held = 2 := held
    refine ⟨?_, congrArg (· - 1) held, ?_⟩
    · simp only [System.tokens, List.map_append, List.map_cons, List.map_nil, List.sum_append,
        List.sum_cons, List.sum_nil, Job.child]
      omega
    · rw [List.forall_mem_append, List.forall_mem_singleton]
      exact ⟨children, .child (notFatal here)⟩
  | finishParent here =>
    rw [here] at held
    have one : s.held = 1 := held
    refine ⟨?_, congrArg (· - 1) held, children⟩
    show s.fifo + 1 + (s.held - 1) + (s.children.map Child.held).sum = nprocs
    omega
  | joined here ended =>
    rw [here] at held
    exact ⟨tokens, held, children⟩
  | getToken here token =>
    rw [here] at held
    refine ⟨?_, congrArg (· + 1) held, children⟩
    show s.fifo - 1 + (s.held + 1) + (s.children.map Child.held).sum = nprocs
    omega
  | @child i put c c' found step =>
    obtain ⟨ok', -, count⟩ := (children c (List.mem_of_getElem? found)).step step
    have sums := Parallel.sum_map_set Child.held c' found
    refine ⟨?_, held, fun d member => ?_⟩
    · show s.fifo + put + s.held + ((s.children.set i c').map Child.held).sum = nprocs
      omega
    · rcases List.mem_or_eq_of_mem_set member with old | rfl
      · exact children d old
      · exact ok'

theorem Ok.reachable (positive : 1 ≤ nprocs) (notFatal : ∀ i, (jobs i).fatal o = false)
    (run : Reachable o jobs nprocs s) : Ok o nprocs s := by
  induction run with
  | refl => exact .start positive
  | tail _ step ok => exact ok.step (fun _ => notFatal _) step

theorem Ok.alone (positive : 1 ≤ nprocs) (alone : nprocs = 1 ∨ o.maxActiveChildren = 0)
    (run : Reachable o jobs nprocs s) : Ok o nprocs s ∧ s.control ≠ .forking := by
  induction run with
  | refl => exact ⟨.start positive, by simp [JobTokens.start]⟩
  | @tail s t _ step invariant =>
    obtain ⟨ok, control⟩ := invariant
    refine ⟨ok.step (fun here => absurd here control) step, ?_⟩
    cases step with
    | takeToken here few token =>
      have held := ok.held
      have tokens := ok.tokens
      rw [here] at held
      have one : s.held = 1 := held
      unfold System.tokens at tokens
      rcases alone with single | nobody
      · omega
      · omega
    | fork here => simp
    | finishParent here => simp
    | joined here ended => simp
    | getToken here token => simp
    | child found step => exact control

theorem countP_held {children : List Child} (ok : ∀ c ∈ children, c.Ok o) :
    children.countP (0 < ·.held) = (children.map Child.held).sum := by
  induction children with
  | nil => rfl
  | cons c rest ih =>
    rw [List.forall_mem_cons] at ok
    have held := ok.1.held
    rw [List.countP_cons, ih ok.2, List.map_cons, List.sum_cons]
    split at held <;> simp [held, Nat.add_comm]

theorem Ok.conserved (ok : Ok o nprocs s) : s.Conserved nprocs := by
  refine ⟨ok.tokens, ?_⟩
  have tokens := ok.tokens
  have held := ok.held
  unfold System.tokens at tokens
  rw [holders, countP_held ok.children]
  cases control : s.control with
  | running =>
    rw [control] at held
    have one : s.held = 1 := held
    simp only [one, reduceCtorEq, if_false, Nat.one_pos, if_true]
    omega
  | forking =>
    rw [control] at held
    have two : s.held = 2 := held
    simp only [two, if_true, Nat.two_pos]
    omega
  | joining | returning =>
    rw [control] at held
    have none_ : s.held = 0 := held
    simp only [none_, reduceCtorEq, if_false, lt_irrefl]
    omega

end System

section

open Relation (ReflTransGen)

variable {o : Options} (jobs : Nat → Job) (fifo held : Nat) (control : Root)
  (before : List Child) {c c' : Child} {job : Job}

theorem last_step {put : Nat} (step : c.Step o put c') :
    Step o jobs ⟨fifo, control, held, before ++ [c]⟩
      ⟨fifo + put, control, held, before ++ [c']⟩ := by
  have found : (before ++ [c])[before.length]? = some c := by simp
  have moved : Step o jobs ⟨fifo, control, held, before ++ [c]⟩ _ := .child found step
  simpa using moved

theorem run_done (here : c.place = .done) : ∃ c', c'.place = .exited ∧
      ReflTransGen (Step o jobs) ⟨fifo, control, held, before ++ [c]⟩
        ⟨fifo + 1, control, held, before ++ [c']⟩ := by
  let finished := { c.print c.job.stats .finishing with finishes := c.finishes + 1 }
  let writing := finished.put (.writing finished.report)
  have finish := last_step jobs fifo held control before (Child.Step.finish (o := o) here)
  have put := last_step jobs fifo held control before
    (Child.Step.putToken (o := o) (c := finished) rfl)
  have run := (ReflTransGen.single finish).tail put
  by_cases empty : finished.report = []
  · have exits : Child.Step o writing 0 { writing with place := .exited } :=
      .exit (congrArg At.writing empty)
    exact ⟨_, rfl, run.tail (last_step jobs _ held control before exits)⟩
  · let sent := { writing with place := .writing [], sent := writing.sent ++ finished.report }
    have writes : Child.Step o writing 0 sent :=
      .write finished.report [] (by rw [List.append_nil]; rfl) empty
    have exits : Child.Step o sent 0 { sent with place := .exited } := .exit rfl
    have sends := last_step jobs (fifo + 0 + 1) held control before writes
    have ends := last_step jobs (fifo + 0 + 1 + 0) held control before exits
    exact ⟨_, rfl, (run.tail sends).tail ends⟩

theorem run_child (notFatal : job.fatal o = false) : ∃ c', c'.place = .exited ∧
      ReflTransGen (Step o jobs) ⟨fifo, control, held, before ++ [job.child o]⟩
        ⟨fifo + 1, control, held, before ++ [c']⟩ := by
  let checking : Child := { job.child o with place := .checking }
  have start := last_step jobs fifo held control before
    (Child.Step.start (o := o) (c := job.child o) rfl)
  have ok : checking.Ok o := ((Child.Ok.child notFatal).step (.start rfl)).1
  cases typed : job.typed with
  | false =>
    have noTyping := last_step jobs fifo held control before
      (Child.Step.noTyping (o := o) (c := checking) rfl typed)
    obtain ⟨c', exited, run⟩ := run_done (o := o) jobs fifo held control before
      (c := checking.print (job.printIf (!o.quiet) ++ job.illTyped o) .done) rfl
    exact ⟨c', exited, .head start (.head noTyping run)⟩
  | true =>
    let verifying := checking.print (job.printIf (!o.quiet)) .verifying
    have typing : Child.Step o checking 0 verifying := .typing rfl typed
    have rest : ∃ c, c.place = .done ∧ Child.Step o verifying 0 c := by
      by_cases noErrors : job.errs = []
      · exact ⟨_, rfl, .correct rfl noErrors⟩
      · exact ⟨_, (ok.step typing).1.refute_place rfl noErrors, .refuted rfl noErrors⟩
    obtain ⟨c, done, step⟩ := rest
    obtain ⟨c', exited, run⟩ := run_done (o := o) jobs fifo held control before done
    have types := last_step jobs fifo held control before typing
    have verifies := last_step jobs fifo held control before step
    exact ⟨c', exited, .head start (.head types (.head verifies run))⟩

/-- A child that is fatal can end without a call of `finishChild`. -/
theorem run_fatal (fatal : job.fatal o = true) : ∃ c', c'.place = .aborted ∧ c'.finishes = 0 ∧
      ReflTransGen (Step o jobs) ⟨fifo, control, held, before ++ [job.child o]⟩
        ⟨fifo + 1, control, held, before ++ [c']⟩ := by
  rw [Job.fatal, Bool.and_eq_true, Bool.and_eq_true, Bool.and_eq_true] at fatal
  obtain ⟨⟨⟨typed, some_⟩, stops⟩, failure⟩ := fatal
  have errors : job.errs ≠ [] := by
    intro none_
    rw [none_] at some_
    cases some_
  let checking : Child := { job.child o with place := .checking }
  let verifying := checking.print (job.printIf (!o.quiet)) .verifying
  let finalizing := verifying.refute o
  let joining := finalizing.put .joining
  have place : finalizing.place = .finalizing := by
    show (if o.exitOnError && (o.hasFailure || job.isUnsound) then At.finalizing else At.done) = _
    rw [stops, failure]
    rfl
  have start : Child.Step o (job.child o) 0 checking := .start rfl
  have typing : Child.Step o checking 0 verifying := .typing rfl typed
  have refuted : Child.Step o verifying 0 finalizing := .refuted rfl errors
  have joins : Child.Step o finalizing 1 joining := .joins place
  have aborts : Child.Step o joining 0 { joining with place := .aborted } := .notParent rfl
  refine ⟨{ joining with place := .aborted }, rfl, rfl, ?_⟩
  refine .head (last_step jobs fifo held control before start) ?_
  refine .head (last_step jobs fifo held control before typing) ?_
  refine .head (last_step jobs fifo held control before refuted) ?_
  refine .head (last_step jobs fifo held control before joins) ?_
  exact .single (last_step jobs (fifo + 1) held control before aborts)

theorem run_fork (several : 1 ≤ fifo) (few : 1 ≤ o.maxActiveChildren)
    (ended : ∀ c ∈ before, c.place.ended = true) :
    ReflTransGen (Step o jobs) ⟨fifo, .running, 1, before⟩
      ⟨fifo - 1, .running, 1, before ++ [(jobs before.length).child o]⟩ := by
  have none_ : before.countP (!·.place.ended) = 0 := by
    rw [List.countP_eq_zero]
    intro c member
    simp [ended c member]
  have take : Step o jobs ⟨fifo, .running, 1, before⟩ _ :=
    .takeToken rfl (none_.trans_lt few) several
  exact .head take (.single (.fork rfl))

theorem run_children (nprocs : Nat) (several : 2 ≤ nprocs) (few : 1 ≤ o.maxActiveChildren)
    (k : Nat) (notFatal : ∀ j < k, (jobs j).fatal o = false) :
    ∃ before, before.length = k ∧ (∀ c ∈ before, c.place.ended = true) ∧
      Reachable o jobs nprocs ⟨nprocs - 1, .running, 1, before⟩ := by
  induction k with
  | zero => exact ⟨[], rfl, by simp, .refl⟩
  | succ k ih =>
    obtain ⟨before, length, ended, run⟩ := ih fun j less =>
      notFatal j (less.trans k.lt_succ_self)
    have forks := run_fork jobs (nprocs - 1) before (by omega) few ended
    rw [length] at forks
    obtain ⟨c', exited, runs⟩ := run_child (o := o) jobs (nprocs - 1 - 1) 1 .running before
      (notFatal k k.lt_succ_self)
    rw [show nprocs - 1 - 1 + 1 = nprocs - 1 by omega] at runs
    refine ⟨before ++ [c'], by simp [length], ?_, (run.trans forks).trans runs⟩
    rw [List.forall_mem_append, List.forall_mem_singleton, exited]
    exact ⟨ended, rfl⟩

end

/-- Tokens are conserved and children finish once in every state of every run, exactly when no
child that the root can fork is fatal. -/
theorem tokens_conserved_iff
    (o : Options) (jobs : Nat → Job) (nprocs : Nat) (positive : 1 ≤ nprocs) :
    (∀ s, Reachable o jobs nprocs s →
        s.Conserved nprocs ∧ ∀ c ∈ s.children, c.FinishesOnce) ↔
      nprocs = 1 ∨ o.maxActiveChildren = 0 ∨ ∀ i, (jobs i).fatal o = false := by
  constructor
  · intro conserved
    by_contra others
    push Not at others
    obtain ⟨several, some_, fatal⟩ := others
    classical
    have first := Nat.find_spec fatal
    have before := fun j less => Nat.find_min (m := j) fatal less
    generalize Nat.find fatal = k at first before
    obtain ⟨children, length, ended, run⟩ := run_children (o := o) jobs nprocs (by omega)
      (by omega) k fun j less => by simpa using before j less
    have forks := run_fork (o := o) jobs (nprocs - 1) children (by omega) (by omega) ended
    rw [length] at forks
    rw [Ne, Bool.not_eq_false] at first
    obtain ⟨c, aborted, never, runs⟩ := run_fatal (o := o) jobs (nprocs - 1 - 1) 1 .running
      children first
    have finishes := (conserved _ ((run.trans forks).trans runs)).2 c (by simp)
    have once := (finishes.ended (by rw [aborted]; rfl)).1
    rw [never] at once
    exact absurd once (by decide)
  · rintro condition s run
    have ok : s.Ok o nprocs := by
      rcases condition with single | nobody | notFatal
      · exact (System.Ok.alone positive (.inl single) run).1
      · exact (System.Ok.alone positive (.inr nobody) run).1
      · exact .reachable positive notFatal run
    exact ⟨ok.conserved, fun c member => (ok.children c member).finishesOnce⟩

def unsoundJob : Job where
  print := []
  typed := true
  warnings := []
  errs := [("Value mismatch".toList, true)]
  passName := "InstCombine".toList
  commandLine := []
  bitcode := none
  stats := []

/-- The default options with `-tv-exit-on-error`. -/
def exitOnError : Options where
  quiet := false
  exitOnError := true
  timeout := false
  maxActiveChildren := 128
  hasFailure := false

theorem tokens_conserved_iff_twoSlots :
    (∀ s, Reachable { exitOnError with exitOnError := false } (fun _ => unsoundJob) 2 s →
        s.Conserved 2 ∧ ∀ c ∈ s.children, c.FinishesOnce) ↔
      2 = 1 ∨ Options.maxActiveChildren { exitOnError with exitOnError := false } = 0 ∨
        ∀ i : Nat, ((fun _ => unsoundJob) i).fatal { exitOnError with exitOnError := false } =
          false :=
  tokens_conserved_iff { exitOnError with exitOnError := false } (fun _ => unsoundJob) 2 (by decide)

/-- The child for an unsound transformation is aborted without a call of `finishChild`. -/
theorem fatal_child_never_finishes :
    ¬∀ s, Reachable exitOnError (fun _ => unsoundJob) 2 s →
      s.Conserved 2 ∧ ∀ c ∈ s.children, c.FinishesOnce := by
  intro conserved
  have forks := run_fork (o := exitOnError) (fun _ => unsoundJob) 1 [] (by decide) (by decide)
    (by simp)
  have fatal : unsoundJob.fatal exitOnError = true := by decide
  obtain ⟨c, aborted, never, runs⟩ := run_fatal (fun _ => unsoundJob) 0 1 .running [] fatal
  have finishes := (conserved _ (forks.trans runs)).2 c (by simp)
  have once := (finishes.ended (by rw [aborted]; rfl)).1
  rw [never] at once
  exact absurd once (by decide)

/-! ## The end of `finishParent` -/

/-- The steps that are left to a child without those of `safe_write`. -/
def At.phases : At → Nat
  | .forked => 7
  | .checking => 6
  | .verifying => 5
  | .finalizing => 4
  | .joining | .done => 3
  | .finishing => 2
  | .writing _ => 1
  | .exited | .aborted => 0

def At.unsent : At → Nat
  | .writing rest => rest.length
  | _ => 0

namespace Child

variable {o : Options} {c c' : Child} {put : Nat}

theorem Step.decreases (step : Step o c put c') : c'.place.phases < c.place.phases ∨
    c'.place.phases = c.place.phases ∧ c'.place.unsent < c.place.unsent := by
  cases step with
  | alarm set here =>
    show 2 < _ ∨ _
    cases place : c.place with
    | checking | verifying | finalizing | joining | done => exact .inl (by decide)
    | _ =>
      rw [place] at here
      cases here
  | refuted here errors =>
    rw [here]
    show (if o.exitOnError && (c.hasFailure || c.job.isUnsound) then At.finalizing
      else At.done).phases < _ ∨ _
    split
    · exact .inl (by decide)
    · exact .inl (by decide)
  | write chunk rest here some_ =>
    rw [here]
    refine .inr ⟨rfl, ?_⟩
    show rest.length < (chunk ++ rest).length
    rw [List.length_append]
    exact Nat.lt_add_of_pos_left (List.length_pos_of_ne_nil some_)
  | start here | noTyping here | typing here | correct here | joins here | notParent here
  | finish here | putToken here | exit here =>
    rw [here]
    exact .inl (by simp [print, Child.put, At.phases])

theorem Step.not_ended (step : Step o c put c') : c.place.ended = false := by
  have fewer := step.decreases
  cases place : c.place with
  | exited | aborted => simp [place, At.phases, At.unsent] at fewer
  | _ => rfl

theorem Ok.progress (ok : Ok o c) (left : c.place.ended = false) : ∃ put c', Step o c put c' := by
  cases place : c.place with
  | forked => exact ⟨_, _, .start place⟩
  | checking =>
    cases typed : c.job.typed with
    | false => exact ⟨_, _, .noTyping place typed⟩
    | true => exact ⟨_, _, .typing place typed⟩
  | verifying =>
    by_cases noErrors : c.job.errs = []
    · exact ⟨_, _, .correct place noErrors⟩
    · exact ⟨_, _, .refuted place noErrors⟩
  | done => exact ⟨_, _, .finish place⟩
  | finishing => exact ⟨_, _, .putToken place⟩
  | writing rest =>
    cases rest with
    | nil => exact ⟨_, _, .exit place⟩
    | cons t rest =>
      exact ⟨_, _, .write (t :: rest) [] (by rw [List.append_nil]; exact place)
        (List.cons_ne_nil t rest)⟩
  | finalizing => exact absurd place ok.away.1
  | joining => exact absurd place ok.away.2.1
  | exited | aborted =>
    rw [place] at left
    cases left

end Child

/-- The root is in `finishParent`. -/
def System.Waiting (s : System) : Prop := s.control = .joining ∨ s.control = .returning

def Root.phases : Root → Nat
  | .joining => 2
  | .returning => 1
  | .running | .forking => 0

def System.left (s : System) : Nat ×ₗ Nat :=
  toLex (s.control.phases + (s.children.map (·.place.phases)).sum,
    (s.children.map (·.place.unsent)).sum)

section

variable {o : Options} {jobs : Nat → Job} {s t : System}

theorem System.Waiting.decreases (waiting : s.Waiting) (step : Step o jobs s t) :
    t.left < s.left := by
  unfold System.left
  rw [Prod.Lex.toLex_lt_toLex]
  cases step with
  | takeToken here | fork here | finishParent here => simp [System.Waiting, here] at waiting
  | joined here | getToken here =>
    rw [here]
    exact .inl (Nat.add_lt_add_right (Nat.lt_succ_self _) _)
  | @child i put c c' found step =>
    have phases := Parallel.sum_map_set (·.place.phases) c' found
    have unsent := Parallel.sum_map_set (·.place.unsent) c' found
    dsimp only
    rcases step.decreases with fewer | ⟨same, less⟩
    · exact .inl (by omega)
    · exact .inr (by omega)

/-- After `joined` all children have ended. -/
theorem returning_ended {nprocs : Nat} (run : Reachable o jobs nprocs s)
    (here : s.control = .returning) : ∀ c ∈ s.children, c.place.ended = true := by
  induction run with
  | refl => cases here
  | @tail s t _ step ih =>
    cases step with
    | joined _ ended => exact ended
    | child found step =>
      have ended := ih here _ (List.mem_of_getElem? found)
      rw [step.not_ended] at ended
      cases ended
    | _ => cases here

end

end AliveNext.Util.JobTokens
