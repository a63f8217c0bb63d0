import AliveNext.Util.ParallelSound

/-!
# The parent finishes

No state of a run is a dead end.  Once the children have ended, each round of
`readFromChildren` empties a pipe further or sees an end of file, so the loops
of the parent end, and `finishParent` returns.
-/

namespace AliveNext.Util.Parallel

open LLVM (Text)
open Relation (ReflTransGen)

def Valid (maxActive : Nat) (program : List Command) (s : System) : Prop :=
  ∃ performed emitted pending, Consistent maxActive program performed emitted pending s

variable {maxActive : Nat} {program : List Command} {s t : System}

section

variable (valid : Valid maxActive program s)

include valid

theorem Valid.step (step : Step s t) : Valid maxActive program t := by
  obtain ⟨_, _, _, ok⟩ := valid
  exact ok.step step

theorem Valid.run (run : ReflTransGen Step s t) : Valid maxActive program t := by
  induction run with
  | refl => exact valid
  | tail _ last ih => exact ih.step last

theorem Valid.control_ok : ControlOk s := by
  obtain ⟨_, _, _, ok⟩ := valid
  exact ok.control

theorem Valid.wired : Wired s.kernel s.manager := by
  obtain ⟨_, _, _, ok⟩ := valid
  exact ok.wired

theorem Valid.max_eq : s.manager.maxActiveChildren = maxActive := by
  obtain ⟨_, _, _, ok⟩ := valid
  exact ok.max_eq

end

def AllClosed (k : Kernel) : Prop :=
  ∀ pipe ∈ k.pipes, pipe.closed = true

theorem children_end (s : System) :
    ∃ kernel, ReflTransGen Step s { s with kernel := kernel } ∧ AllClosed kernel := by
  induction running : s.kernel.pipes.countP (fun pipe => !pipe.closed) using
    Nat.strong_induction_on generalizing s with
  | _ n ih =>
    by_cases closed : AllClosed s.kernel
    · exact ⟨s.kernel, .refl, closed⟩
    · obtain ⟨pipe, member, still⟩ : ∃ pipe ∈ s.kernel.pipes, ¬ pipe.closed = true := by
        simpa only [AllClosed, not_forall, exists_prop] using closed
      obtain ⟨index, found⟩ := List.mem_iff_getElem?.1 member
      obtain ⟨in_range, here⟩ := List.getElem?_eq_some_iff.1 found
      have still_open : pipe.closed = false := by simpa using still
      have fewer : (s.kernel.exit index pipe).pipes.countP (fun pipe => !pipe.closed) < n := by
        have some_running : 0 < s.kernel.pipes.countP (fun pipe => !pipe.closed) :=
          List.countP_pos_iff.2 ⟨pipe, member, by simp [still_open]⟩
        simp only [Kernel.exit, List.countP_set in_range, here, still_open]
        simp
        omega
      obtain ⟨kernel, run, closed⟩ :=
        ih _ fewer { s with kernel := s.kernel.exit index pipe } rfl
      exact ⟨kernel, .head (.childExits found still_open) run, closed⟩

def work (s : System) : Nat :=
  (s.kernel.pipes.map fun pipe => pipe.unread.length).sum + s.manager.activeChildren

variable {i : Nat} {loop : Loop} {slot : Slot} {k : Kernel} {m : Manager}

theorem sum_map_set {α : Type*} (f : α → Nat) {l : List α} {a : α} (b : α)
    (found : l[i]? = some a) : ((l.set i b).map f).sum + f a = (l.map f).sum + f b := by
  induction l generalizing i with
  | nil => cases found
  | cons x l ih =>
    cases i with
    | zero =>
      cases found
      simp only [List.set_cons_zero, List.map_cons, List.sum_cons]
      omega
    | succ i =>
      have rest := ih (i := i) found
      simp only [List.set_cons_succ, List.map_cons, List.sum_cons]
      omega

structure Settled (maxActive : Nat) (program : List Command) (s : System) : Prop where
  valid : Valid maxActive program s
  closed : AllClosed s.kernel

section

variable (settled : Settled maxActive program s)

include settled

theorem Settled.scan_turn (control : s.control = .scanning loop i)
    (found : s.manager.slots[i]? = some slot) (event : slot.revents = true) :
    ∃ t, Step s t ∧ Settled maxActive program t ∧ t.control = .scanning loop (i + 1) ∧
      t.todo = s.todo ∧ t.manager.slots.length = s.manager.slots.length ∧ work t < work s := by
  obtain ⟨_, _, _, ok⟩ := settled.valid
  obtain ⟨-, index, child, used, mapped, known, -, file, -⟩ := ok.event_wired control found event
  have in_range : index < s.kernel.pipes.length := by
    rw [← ok.wired.paired]
    exact (List.getElem?_eq_some_iff.1 known).1
  have piped : s.kernel.pipes[index]? = some s.kernel.pipes[index] :=
    List.getElem?_eq_getElem in_range
  have pipe_closed := settled.closed _ (List.mem_of_getElem? piped)
  by_cases empty : s.kernel.pipes[index].unread = []
  · have step := Step.scanEof control found event mapped known (.eof file piped empty pipe_closed)
    refine ⟨_, step, ⟨settled.valid.step step, settled.closed⟩, rfl, rfl, ?_, ?_⟩
    · rw [Manager.receive, if_pos rfl]
      exact List.length_set
    · have active : 0 < s.manager.activeChildren := by
        rw [ok.wired.counted, used_length]
        exact List.countP_pos_iff.2 ⟨slot, List.mem_of_getElem? found, by simp [used]⟩
      simp only [work, Manager.receive, if_true, Kernel.close]
      omega
  · have some_data : s.kernel.pipes[index].unread.take Kernel.maxRead ≠ [] := by
      simpa [List.take_eq_nil_iff, Kernel.maxRead] using empty
    have step := Step.scanData control found event mapped known
      (.data file piped (List.take_append_drop Kernel.maxRead _).symm some_data
        (List.length_take_le _ _)) some_data
    refine ⟨_, step, ⟨settled.valid.step step, ?_⟩, rfl, rfl, ?_, ?_⟩
    · intro pipe member
      rcases List.mem_or_eq_of_mem_set member with old | rfl
      · exact settled.closed pipe old
      · exact pipe_closed
    · rw [Manager.receive, if_neg some_data]
    · have less := sum_map_set (fun pipe : Pipe => pipe.unread.length)
        { s.kernel.pipes[index] with
          unread := s.kernel.pipes[index].unread.drop Kernel.maxRead } piped
      have positive : 0 < s.kernel.pipes[index].unread.length := List.length_pos_iff.2 empty
      have cut : (s.kernel.pipes[index].unread.drop Kernel.maxRead).length <
          s.kernel.pipes[index].unread.length := by
        rw [List.length_drop, Kernel.maxRead]
        omega
      simp only [work, Manager.receive, if_neg some_data]
      simp only at less
      omega

theorem Settled.scan (control : s.control = .scanning loop i) :
    ∃ t, ReflTransGen Step s t ∧ Settled maxActive program t ∧ t.control = loop.resume true ∧
      t.todo = s.todo ∧ work t ≤ work s ∧
      ((∃ (j : Nat) (slot : Slot), i ≤ j ∧ s.manager.slots[j]? = some slot ∧
        slot.revents = true) → work t < work s) := by
  induction left : s.manager.slots.length - i generalizing s i with
  | zero =>
    have past_end : s.manager.slots[i]? = none := List.getElem?_eq_none (by omega)
    have step := Step.scanEnd control past_end
    refine ⟨_, .single step, ⟨settled.valid.step step, settled.closed⟩, rfl, rfl, Nat.le_refl _, ?_⟩
    rintro ⟨j, slot, late, found, -⟩
    have in_range := (List.getElem?_eq_some_iff.1 found).1
    omega
  | succ n ih =>
    have in_range : i < s.manager.slots.length := by omega
    have found : s.manager.slots[i]? = some s.manager.slots[i] := List.getElem?_eq_getElem in_range
    by_cases event : s.manager.slots[i].revents = true
    · obtain ⟨u, step, settled', control', todo_eq, length_eq, less⟩ :=
        settled.scan_turn control found event
      obtain ⟨t, run, settled'', control'', todo_eq', le, -⟩ := ih settled' control' (by omega)
      exact ⟨t, .head step run, settled'', control'', todo_eq'.trans todo_eq, by omega,
        fun _ => by omega⟩
    · have step := Step.scanSkip control found (by simpa using event)
      obtain ⟨t, run, settled', control', todo_eq, le, strict⟩ :=
        ih ⟨settled.valid.step step, settled.closed⟩ rfl
          (show s.manager.slots.length - (i + 1) = n by omega)
      refine ⟨t, .head step run, settled', control', todo_eq, le, ?_⟩
      rintro ⟨j, slot, late, found', event'⟩
      refine strict ⟨j, slot, ?_, found', event'⟩
      have different : i ≠ j := by
        rintro rfl
        cases found.symm.trans found'
        exact event event'
      omega

/-- A call of `readFromChildren` with active children returns, with less left
to read. -/
theorem Settled.read (control : s.control = .calling loop) (active : s.manager.activeChildren ≠ 0) :
    ∃ t, ReflTransGen Step s t ∧ Settled maxActive program t ∧ t.control = loop.resume true ∧
      t.todo = s.todo ∧ work t < work s := by
  have wired := settled.valid.wired
  obtain ⟨slot, member, in_use⟩ : ∃ slot ∈ s.manager.slots, slot.fd.isSome = true := by
    rw [wired.counted, used_length] at active
    exact List.countP_pos_iff.1 (Nat.pos_of_ne_zero active)
  obtain ⟨fd, used⟩ := Option.isSome_iff_exists.1 in_use
  obtain ⟨i, found⟩ := List.mem_iff_getElem?.1 member
  obtain ⟨index, child, -, known, -, -, file⟩ := wired.slot_wired i slot fd found used
  have ready : s.kernel.ready fd = true := by
    have in_range : index < s.kernel.pipes.length := by
      rw [← wired.paired]
      exact (List.getElem?_eq_some_iff.1 known).1
    have piped : s.kernel.pipes[index]? = some s.kernel.pipes[index] :=
      List.getElem?_eq_getElem in_range
    simp only [Kernel.ready, file, piped, settled.closed _ (List.mem_of_getElem? piped),
      Bool.or_true]
  have polled : (s.kernel.poll s.manager.slots)[i]? = some { slot with revents := true } := by
    rw [Kernel.poll, List.getElem?_map, found]
    simp [used, ready]
  have step := Step.pollEvents control active ⟨_, List.mem_of_getElem? polled, rfl⟩
  obtain ⟨t, run, settled', control', todo_eq, -, strict⟩ :=
    Settled.scan ⟨settled.valid.step step, settled.closed⟩ rfl
  exact ⟨t, .head step run, settled', control', todo_eq, strict ⟨i, _, Nat.zero_le _, polled, rfl⟩⟩

theorem Settled.drain (control : s.control = .calling loop)
    (again : loop.resume true = .calling loop) :
    ∃ t, ReflTransGen Step s t ∧ Settled maxActive program t ∧ t.control = loop.resume false ∧
      t.todo = s.todo := by
  induction left : work s using Nat.strong_induction_on generalizing s with
  | _ n ih =>
    by_cases active : s.manager.activeChildren = 0
    · have step := Step.nobody control active
      exact ⟨_, .single step, ⟨settled.valid.step step, settled.closed⟩, rfl, rfl⟩
    · obtain ⟨u, run, settled', control', todo_eq, less⟩ := settled.read control active
      obtain ⟨t, run', settled'', control'', todo_eq'⟩ :=
        ih (work u) (by omega) settled' (control'.trans again) rfl
      exact ⟨t, run.trans run', settled'', control'', todo_eq'.trans todo_eq⟩

theorem Settled.throttle (positive : 0 < maxActive) (control : s.control = .throttling) :
    ∃ t, ReflTransGen Step s t ∧ Settled maxActive program t ∧ t.control = .throttling ∧
      t.todo = s.todo ∧ t.manager.activeChildren < t.manager.maxActiveChildren := by
  induction left : work s using Nat.strong_induction_on generalizing s with
  | _ n ih =>
    rcases Nat.lt_or_ge s.manager.activeChildren s.manager.maxActiveChildren with room | full
    · exact ⟨s, .refl, settled, control, rfl, room⟩
    · have step := Step.throttle control full
      have active : s.manager.activeChildren ≠ 0 := by
        rw [settled.valid.max_eq] at full
        omega
      obtain ⟨u, run, settled', control', todo_eq, less⟩ :=
        Settled.read ⟨settled.valid.step step, settled.closed⟩ rfl active
      obtain ⟨t, run', settled'', control'', todo_eq', room⟩ :=
        ih (work u) (Nat.lt_of_lt_of_eq less left) settled' control' rfl
      exact ⟨t, .head step (run.trans run'), settled'', control'', todo_eq'.trans todo_eq, room⟩

end

theorem Wired.fresh (wired : Wired k m) : ∃ fd, k.files fd = none := by
  refine ⟨(m.children.map ChildProcess.pipe).sum + 1, ?_⟩
  cases file : k.files ((m.children.map ChildProcess.pipe).sum + 1) with
  | none => rfl
  | some index =>
    obtain ⟨child, known, pipe⟩ := wired.file_wired _ index file
    have bounded : child.pipe ≤ (m.children.map ChildProcess.pipe).sum :=
      List.single_le_sum (fun _ _ => Nat.zero_le _) _
        (List.mem_map_of_mem (List.mem_of_getElem? known))
    omega

theorem Settled.fork (settled : Settled maxActive program s) {rest : List Command}
    (positive : 0 < maxActive) (control : s.control = .throttling)
    (next : s.todo = .verify :: rest) :
    ∃ t, ReflTransGen Step s t ∧ Valid maxActive program t ∧ t.control = .idle ∧ t.todo = rest := by
  obtain ⟨u, run, settled', control', todo_eq, room⟩ := settled.throttle positive control
  obtain ⟨_, _, _, ok⟩ := settled'.valid
  obtain ⟨fd, fresh⟩ := ok.wired.fresh
  obtain ⟨m', -, -, verified, -⟩ := verify_spec ok.wired ok.drained ok.ledger fresh room
  have step := Step.fork control' room (todo_eq.trans next) fresh verified
  exact ⟨_, run.tail step, settled'.valid.step step, rfl, rfl⟩

theorem Settled.finish (settled : Settled maxActive program s)
    (control : s.control = .calling .finish) : ∃ t, ReflTransGen Step s t ∧ t.control = .done := by
  obtain ⟨u, run, settled', control', -⟩ := settled.drain control rfl
  have control_ok := settled'.valid.control_ok
  rw [ControlOk, control'] at control_ok
  obtain ⟨_, _, _, ok⟩ := settled'.valid
  obtain ⟨m', emits, -⟩ := ok.join control'
  exact ⟨_, run.tail (Step.join control' control_ok.2 emits), rfl⟩

theorem Valid.finish_idle (valid : Valid maxActive program s) (positive : 0 < maxActive)
    (control : s.control = .idle) : ∃ t, ReflTransGen Step s t ∧ t.control = .done := by
  induction next : s.todo generalizing s with
  | nil =>
    obtain ⟨kernel, run, closed⟩ := children_end s
    have step := Step.callFinish (s := { s with kernel := kernel }) control next
    obtain ⟨t, run', done⟩ := Settled.finish ⟨(valid.run run).step step, closed⟩ rfl
    exact ⟨t, run.trans (.head step run'), done⟩
  | cons command rest ih =>
    cases command with
    | print own =>
      have step := Step.print control next
      obtain ⟨t, run, done⟩ := ih (valid.step step) control rfl
      exact ⟨t, .head step run, done⟩
    | verify =>
      obtain ⟨kernel, run, closed⟩ := children_end s
      have step := Step.callFork (s := { s with kernel := kernel }) control next
      obtain ⟨u, run', settled, control', todo_eq⟩ :=
        Settled.drain ⟨(valid.run run).step step, closed⟩ rfl rfl
      obtain ⟨v, run'', valid', control'', todo_eq'⟩ :=
        settled.fork positive control' (todo_eq.trans next)
      obtain ⟨t, run''', done⟩ := ih valid' control'' todo_eq'
      exact ⟨t, run.trans (.head step (run'.trans (run''.trans run'''))), done⟩

section

variable (settled : Settled maxActive program s) (positive : 0 < maxActive)

include settled positive

theorem Settled.finish_throttling (control : s.control = .throttling) :
    ∃ t, ReflTransGen Step s t ∧ t.control = .done := by
  have control_ok := settled.valid.control_ok
  rw [ControlOk, control] at control_ok
  obtain ⟨rest, next⟩ := control_ok
  obtain ⟨u, run, valid, control', -⟩ := settled.fork positive control next
  obtain ⟨t, run', done⟩ := valid.finish_idle positive control'
  exact ⟨t, run.trans run', done⟩

theorem Settled.finish_calling (control : s.control = .calling loop) :
    ∃ t, ReflTransGen Step s t ∧ t.control = .done := by
  cases loop with
  | drain =>
    obtain ⟨u, run, settled', control', -⟩ := settled.drain control rfl
    obtain ⟨t, run', done⟩ := settled'.finish_throttling positive control'
    exact ⟨t, run.trans run', done⟩
  | throttle =>
    by_cases active : s.manager.activeChildren = 0
    · have step := Step.nobody control active
      obtain ⟨t, run, done⟩ :=
        Settled.finish_throttling ⟨settled.valid.step step, settled.closed⟩ positive rfl
      exact ⟨t, .head step run, done⟩
    · obtain ⟨u, run, settled', control', -⟩ := settled.read control active
      obtain ⟨t, run', done⟩ := settled'.finish_throttling positive control'
      exact ⟨t, run.trans run', done⟩
  | finish => exact settled.finish control

theorem Settled.finish_scanning (control : s.control = .scanning loop i) :
    ∃ t, ReflTransGen Step s t ∧ t.control = .done := by
  obtain ⟨u, run, settled', control', -⟩ := settled.scan control
  suffices finishes : ∃ t, ReflTransGen Step u t ∧ t.control = .done by
    obtain ⟨t, run', done⟩ := finishes
    exact ⟨t, run.trans run', done⟩
  cases loop with
  | drain => exact settled'.finish_calling positive control'
  | throttle => exact settled'.finish_throttling positive control'
  | finish => exact settled'.finish_calling positive control'

theorem Settled.finish_running (running : s.control ≠ .exited) :
    ∃ t, ReflTransGen Step s t ∧ t.control = .done := by
  have control_ok := settled.valid.control_ok
  cases control : s.control with
  | idle => exact settled.valid.finish_idle positive control
  | calling loop => exact settled.finish_calling positive control
  | scanning loop i => exact settled.finish_scanning positive control
  | throttling => exact settled.finish_throttling positive control
  | joining =>
    rw [ControlOk, control] at control_ok
    obtain ⟨_, _, _, ok⟩ := settled.valid
    obtain ⟨m', emits, -⟩ := ok.join control
    exact ⟨_, .single (Step.join control control_ok.2 emits), rfl⟩
  | done => exact ⟨_, .refl, control⟩
  | exited => exact absurd control running
  | failed =>
    rw [ControlOk, control] at control_ok
    exact control_ok.elim

end

theorem Valid.finish (valid : Valid maxActive program s) (positive : 0 < maxActive)
    (running : s.control ≠ .exited) : ∃ t, ReflTransGen Step s t ∧ t.control = .done := by
  obtain ⟨kernel, run, closed⟩ := children_end s
  obtain ⟨t, run', done⟩ := Settled.finish_running ⟨valid.run run, closed⟩ positive running
  exact ⟨t, run.trans run', done⟩

theorem Wired.used_distinct (wired : Wired k m) : (m.used.map Slot.child).Nodup := by
  rw [List.Nodup, List.pairwise_map, Manager.used, List.pairwise_filter, List.pairwise_iff_getElem]
  intro i j i_lt j_lt earlier used used' same
  have here := wired.distinct i j _ _ (List.getElem?_eq_getElem i_lt)
    (List.getElem?_eq_getElem j_lt) (Option.isSome_iff_ne_none.1 used)
    (Option.isSome_iff_ne_none.1 used') same
  omega

theorem Wired.used_running (wired : Wired k m) (member : slot ∈ m.used) :
    ∃ index child, slot.child = some index ∧ m.children[index]? = some child ∧
      child.eof = false := by
  obtain ⟨in_slots, in_use⟩ := List.mem_filter.1 member
  obtain ⟨fd, used⟩ := Option.isSome_iff_exists.1 in_use
  obtain ⟨i, found⟩ := List.mem_iff_getElem?.1 in_slots
  obtain ⟨index, child, mapped, known, running, -⟩ := wired.slot_wired i slot fd found used
  exact ⟨index, child, mapped, known, running⟩

theorem Consistent.output {performed : List Command} {emitted pending : List Entry}
    (ok : Consistent maxActive program performed emitted pending s) (done : s.control = .done) :
    s.manager.outFile = sequentialOutput program s.kernel.sent := by
  have control_ok := ok.control
  rw [ControlOk, done] at control_ok
  have text := ok.ledger.text_eq
  rw [ok.finished done, List.append_nil] at text
  rw [sequentialOutput, ok.program_eq, show s.todo = [] from control_ok, List.append_nil, text]
  exact ok.ledger.out_eq

/-- In every state of every run, the active children are counted by the used
slots, at most `maxActive` of them, and each used slot belongs to one child that
has not ended, no two to the same; no assertion fails.  When `finishParent`
has returned, the file holds the sequential output.  Unless a fork fails, every
run gets there. -/
theorem finishParent_output
    {maxActive : Nat} (positive : 0 < maxActive) {program : List Command} {s : System}
    (reachable : Reachable maxActive program s) :
    s.control ≠ .failed ∧
    s.manager.activeChildren = s.manager.used.length ∧
    s.manager.activeChildren ≤ maxActive ∧
    (∀ slot ∈ s.manager.used, ∃ index child, slot.child = some index ∧
      s.manager.children[index]? = some child ∧ child.eof = false) ∧
    (s.manager.used.map Slot.child).Nodup ∧
    (s.control = .done → s.manager.outFile = sequentialOutput program s.kernel.sent) ∧
    (s.control ≠ .exited → ∃ t, ReflTransGen Step s t ∧ t.control = .done) := by
  obtain ⟨_, _, _, ok⟩ := reachable_consistent reachable
  refine ⟨?_, ok.wired.counted, ?_, fun slot member => ok.wired.used_running member,
    ok.wired.used_distinct, ok.output, Valid.finish ⟨_, _, _, ok⟩ positive⟩
  · intro failed
    have control_ok := ok.control
    rw [ControlOk, failed] at control_ok
    exact control_ok
  · rw [← ok.max_eq]
    exact ok.wired.active_le

/-- The line `a` of the parent. -/
def lineA : Line where
  chars := ['a']
  one_line := by decide
  plain := by decide

theorem finishParent_output_one :
    ∃ t, Reachable 1 [.verify, .print lineA, .verify] t ∧ t.control = .done ∧
      t.manager.outFile = t.kernel.sent 0 ++ ['a', '\n'] ++ t.kernel.sent 1 := by
  have initial : Reachable 1 [.verify, .print lineA, .verify]
      (start 1 [.verify, .print lineA, .verify]) := .refl
  obtain ⟨-, -, -, -, -, -, finishes⟩ := finishParent_output (by decide) initial
  obtain ⟨t, run, done⟩ := finishes nofun
  have reachable : Reachable 1 [.verify, .print lineA, .verify] t := run
  obtain ⟨-, -, -, -, -, output, -⟩ := finishParent_output (by decide) reachable
  refine ⟨t, reachable, done, (output done).trans ?_⟩
  simp [sequentialOutput, entries, Entry.resolved, Line.text, lineA]

/-! ## The file -/

theorem emitOutput_grows {m m' : Manager} {complete : Bool}
    (emits : m.emitOutput = some (complete, m')) : m.outFile <+: m'.outFile := by
  fun_induction Manager.emitOutput m with
  | case3 =>
    rename_i ih
    exact (List.prefix_append _ _).trans (ih emits)
  | case6 =>
    rename_i ih
    exact List.IsPrefix.trans ⟨_, (List.append_assoc _ _ _).symm⟩ (ih emits)
  | case1 | case5 =>
    cases emits
    exact List.prefix_rfl
  | _ => cases emits

theorem Step.grows {s t : System} (step : Step s t) : s.manager.outFile <+: t.manager.outFile := by
  cases step with
  | fork control room next fresh forked =>
    obtain ⟨⟨index, m⟩, launched, printed⟩ := Option.bind_eq_some_iff.1 forked
    cases printed
    unfold Manager.launch at launched
    dsimp only at launched
    split at launched
    all_goals
      obtain ⟨m', flushed, rest⟩ := Option.bind_eq_some_iff.1 launched
      obtain ⟨slots, -, same⟩ := Option.bind_eq_some_iff.1 rest
      cases same
    · obtain ⟨pair, emits, rfl⟩ := Option.map_eq_some_iff.1 flushed
      have grown := emitOutput_grows emits
      exact grown
    · cases flushed
      exact List.prefix_rfl
  | join control nobody emits => exact emitOutput_grows emits
  | scanData =>
    unfold Manager.receive
    split <;> exact List.prefix_rfl
  | _ => exact List.prefix_rfl

end AliveNext.Util.Parallel
