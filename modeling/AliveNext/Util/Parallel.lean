import AliveNext.LLVM.Syntax

/-!
# The parallel manager

`util/parallel.cpp` verifies each function in a forked child.  A child sends
its report through a pipe; the parent keeps its own output in a string stream,
leaves a placeholder line for every child, and patches the reports in later.

The manager's data and functions are those of class `parallel`.  Around them
stands the system they run in: the kernel's pipes, the children that write to
them, and the control point of the parent.  A child can act between any two
system calls of the parent.
-/

namespace AliveNext.Util.Parallel

open LLVM (Text)

/-- A `std::stringstream`: the text written to it, the get position, and the
end-of-file flag. -/
structure StringStream where
  text : Text := []
  pos : Nat := 0
  eof : Bool := false
  deriving DecidableEq, Repr

namespace StringStream

def unread (s : StringStream) : Text :=
  s.text.drop s.pos

/-- `operator<<`; a stream with its end-of-file flag up takes no text. -/
def write (s : StringStream) (text : Text) : StringStream :=
  if s.eof then s else { s with text := s.text ++ text }

/-- `std::getline`.  A last line without a line break is returned too, but
raises the end-of-file flag. -/
def getline (s : StringStream) : Option Text × StringStream :=
  if s.eof then (none, s)
  else if s.unread = [] then (none, { s with eof := true })
  else
    let line := s.unread.takeWhile (· ≠ '\n')
    if '\n' ∈ s.unread then (some line, { s with pos := s.pos + line.length + 1 })
    else (some line, { s with pos := s.text.length, eof := true })

/-- `tellg`, which is `-1` once the end-of-file flag is up. -/
def tellg (s : StringStream) : Option Nat :=
  if s.eof then none else some s.pos

def clear (s : StringStream) : StringStream :=
  { s with eof := false }

theorem unread_length_lt {s t : StringStream} {line : Text} (taken : s.getline = (some line, t)) :
    t.unread.length < s.unread.length := by
  unfold getline at taken
  split at taken
  · cases taken
  · split at taken
    · cases taken
    · rename_i some_unread
      have positive : 0 < s.unread.length := List.length_pos_iff.2 some_unread
      simp only [unread, List.length_drop] at positive
      split at taken <;> cases taken <;>
        simp only [unread, List.length_drop] <;> omega

end StringStream

/-- The white space that `strtol` skips. -/
def isSpace (c : Char) : Bool :=
  c = ' ' || ('\t' ≤ c && c ≤ '\r')

/-- `strtol` in base ten. -/
def strtol (text : Text) : Int :=
  match text.dropWhile isSpace with
  | '-' :: rest => -(Nat.ofDigitChars 10 (rest.takeWhile Char.isDigit) 0 : Int)
  | '+' :: rest => Nat.ofDigitChars 10 (rest.takeWhile Char.isDigit) 0
  | rest => Nat.ofDigitChars 10 (rest.takeWhile Char.isDigit) 0

def includeTag : Text :=
  ['i', 'n', 'c', 'l', 'u', 'd', 'e', '(']

/-- The line that `TVLegacyPass::verify` leaves for the child `index`. -/
def placeholder (index : Nat) : Text :=
  includeTag ++ Nat.toDigits 10 index ++ [')', '\n']

/-- `struct childProcess`: the file descriptor `pipe[0]`, the text received so
far, and whether the end of file has been seen. -/
structure ChildProcess where
  pipe : Nat
  output : Text := []
  eof : Bool := false
  deriving DecidableEq, Repr

/-- `pfd[i].fd`, `pfd[i].revents` and `pfd_map[i]` of one `i`; the descriptor
and the index `-1` are `none`. -/
structure Slot where
  fd : Option Nat := none
  revents : Bool := false
  child : Option Nat := none
  deriving DecidableEq, Repr

/-- The data of class `parallel`. -/
structure Manager where
  maxActiveChildren : Nat
  activeChildren : Nat := 0
  slots : List Slot
  children : List ChildProcess := []
  parentSs : StringStream := {}
  outFile : Text := []
  deriving DecidableEq, Repr

namespace Manager

/-- The constructor followed by `init`. -/
def init (maxActiveChildren : Nat) : Manager where
  maxActiveChildren := maxActiveChildren
  slots := List.replicate maxActiveChildren {}

def used (m : Manager) : List Slot :=
  m.slots.filter fun slot => slot.fd.isSome

/-- `children[index]`; an index out of range is undefined behaviour. -/
def child (m : Manager) (index : Int) : Option ChildProcess :=
  if 0 ≤ index then m.children[index.toNat]? else none

/-- `*out << text` in the parent. -/
def print (m : Manager) (text : Text) : Manager :=
  { m with parentSs := m.parentSs.write text }

/-- `emitOutput`.  The result is whether the end of the output was reached;
`none` is an index out of range, or the exception of `substr` at `-1`. -/
def emitOutput (m : Manager) : Option (Bool × Manager) :=
  match taken : m.parentSs.getline with
  | (none, ss) => some (true, { m with parentSs := ss.clear })
  | (some line, ss) =>
    have : ss.unread.length < m.parentSs.unread.length :=
      StringStream.unread_length_lt taken
    if includeTag <+: line then
      let index := strtol (line.drop includeTag.length)
      match m.child index with
      | none => none
      | some child =>
        if child.eof then
          emitOutput
            { m with
              parentSs := ss
              outFile := m.outFile ++ child.output
              children := m.children.set index.toNat { child with output := [] } }
        else
          match ss.tellg with
          | none => none
          | some cur =>
            let newSs : StringStream := { text := line ++ '\n' :: ss.text.drop cur }
            some (false, { m with parentSs := newSs })
    else
      emitOutput { m with parentSs := ss, outFile := m.outFile ++ line ++ ['\n'] }
  termination_by m.parentSs.unread.length

/-- The loop of `limitedFork` that gives the first free slot to the new child;
`none` when its assertion fails. -/
def claimSlot (fd index : Nat) : List Slot → Option (List Slot)
  | [] => none
  | slot :: rest =>
    if slot.fd = none then
      some ({ slot with fd := some fd, child := some index } :: rest)
    else
      (claimSlot fd index rest).map (slot :: ·)

/-- `limitedFork` after its two loops, where `pipe` and `fork` succeed and the
read end of the new pipe is `fd`. -/
def launch (m : Manager) (fd : Nat) : Option (Nat × Manager) := do
  let index := m.children.length
  let newKid : ChildProcess := { pipe := fd }
  let m := { m with children := m.children ++ [newKid] }
  let m ← if index % 100 = 0 then m.emitOutput.map Prod.snd else some m
  let slots ← claimSlot fd index m.slots
  return (index, { m with activeChildren := m.activeChildren + 1, slots := slots })

/-- The parent's side of `verify`: fork, then leave the placeholder. -/
def verify (m : Manager) (fd : Nat) : Option Manager := do
  let (index, m) ← m.launch fd
  return m.print (placeholder index)

/-- One turn of the loop of `readFromChildren`, with what `read` returned for
the slot `i`. -/
def receive (m : Manager) (i : Nat) (slot : Slot) (index : Nat)
    (child : ChildProcess) (data : Text) : Manager :=
  if data = [] then
    { m with
      children := m.children.set index { child with eof := true }
      activeChildren := m.activeChildren - 1
      slots := m.slots.set i { slot with fd := none } }
  else
    { m with
      children := m.children.set index { child with output := child.output ++ data } }

end Manager

/-- A pipe from a child: all that was sent, the part still in the pipe, and
whether the child has closed its end. -/
structure Pipe where
  sent : Text := []
  unread : Text := []
  closed : Bool := false
  deriving DecidableEq, Repr

/-- The pipes in the order of their creation, and the pipe behind each open
descriptor of the parent. -/
structure Kernel where
  pipes : List Pipe := []
  files : Nat → Option Nat := fun _ => none

namespace Kernel

def maxRead : Nat := 16 * 4096

/-- All that the child `index` has sent. -/
def sent (k : Kernel) (index : Nat) : Text :=
  match k.pipes[index]? with
  | some pipe => pipe.sent
  | none => []

/-- Whether `poll` reports an event for a descriptor: data, a closed writer, or
an invalid descriptor. -/
def ready (k : Kernel) (fd : Nat) : Bool :=
  match k.files fd with
  | none => true
  | some index =>
    match k.pipes[index]? with
    | none => true
    | some pipe => !pipe.unread.isEmpty || pipe.closed

/-- `poll` fills in `revents`, and ignores the slots whose descriptor is `-1`. -/
def poll (k : Kernel) (slots : List Slot) : List Slot :=
  slots.map fun slot =>
    { slot with
      revents := match slot.fd with
        | none => false
        | some fd => k.ready fd }

/-- The child `index` puts a chunk into its pipe. -/
def write (k : Kernel) (index : Nat) (pipe : Pipe) (chunk : Text) : Kernel :=
  { k with
    pipes := k.pipes.set index
      { pipe with sent := pipe.sent ++ chunk, unread := pipe.unread ++ chunk } }

/-- The child `index` ends. -/
def exit (k : Kernel) (index : Nat) (pipe : Pipe) : Kernel :=
  { k with pipes := k.pipes.set index { pipe with closed := true } }

/-- `read(fd, data, maxRead)`: some of the text in the pipe, or the end of file
when the pipe is empty and its writer is gone. -/
inductive Reads (k : Kernel) (fd : Nat) : Text → Kernel → Prop where
  | data {index : Nat} {pipe : Pipe} {data rest : Text} (file : k.files fd = some index)
      (found : k.pipes[index]? = some pipe)
      (split : pipe.unread = data ++ rest)
      (some_data : data ≠ [])
      (bounded : data.length ≤ maxRead) :
      Reads k fd data { k with pipes := k.pipes.set index { pipe with unread := rest } }
  | eof {index : Nat} {pipe : Pipe} (file : k.files fd = some index)
      (found : k.pipes[index]? = some pipe)
      (empty : pipe.unread = [])
      (closed : pipe.closed = true) :
      Reads k fd [] k

def close (k : Kernel) (fd : Nat) : Kernel :=
  { k with files := Function.update k.files fd none }

/-- `pipe`, whose read end gets the descriptor `fd`. -/
def pipe (k : Kernel) (fd : Nat) : Kernel where
  pipes := k.pipes ++ [{}]
  files := Function.update k.files fd (some k.pipes.length)

end Kernel

/-- A complete line of the parent that is no placeholder. -/
structure Line where
  chars : Text
  one_line : '\n' ∉ chars
  plain : ¬ includeTag <+: chars

def Line.text (line : Line) : Text :=
  line.chars ++ ['\n']

/-- What the parent does: it prints a line, or has a function verified by a
child. -/
inductive Command where
  | print (line : Line)
  | verify

/-- The three loops around `readFromChildren`. -/
inductive Loop where
  | drain
  | throttle
  | finish
  deriving DecidableEq, Repr

/-- The argument `blocking` in each loop. -/
def Loop.blocking : Loop → Bool
  | .drain => false
  | .throttle => true
  | .finish => true

/-- Where the parent is. -/
inductive Control where
  | idle
  | calling (loop : Loop)
  | scanning (loop : Loop) (i : Nat)
  | throttling
  | joining
  | done
  | exited
  | failed
  deriving DecidableEq, Repr

/-- Where a loop goes on when `readFromChildren` has returned. -/
def Loop.resume : Loop → Bool → Control
  | .drain, true => .calling .drain
  | .drain, false => .throttling
  | .throttle, _ => .throttling
  | .finish, true => .calling .finish
  | .finish, false => .joining

structure System where
  control : Control := .idle
  todo : List Command
  manager : Manager
  kernel : Kernel := {}

def start (maxActiveChildren : Nat) (program : List Command) : System where
  todo := program
  manager := Manager.init maxActiveChildren

inductive Step : System → System → Prop where
  | childWrites {s : System} {index : Nat} {pipe : Pipe} (chunk : Text)
      (found : s.kernel.pipes[index]? = some pipe)
      (running : pipe.closed = false) :
      Step s { s with kernel := s.kernel.write index pipe chunk }
  | childExits {s : System} {index : Nat} {pipe : Pipe} (found : s.kernel.pipes[index]? = some pipe)
      (running : pipe.closed = false) :
      Step s { s with kernel := s.kernel.exit index pipe }
  | print {s : System} {line : Line} {rest : List Command} (control : s.control = .idle)
      (next : s.todo = .print line :: rest) :
      Step s { s with todo := rest, manager := s.manager.print line.text }
  | callFork {s : System} {rest : List Command} (control : s.control = .idle)
      (next : s.todo = .verify :: rest) :
      Step s { s with control := .calling .drain }
  | callFinish {s : System} (control : s.control = .idle) (next : s.todo = []) :
      Step s { s with control := .calling .finish }
  | nobody {s : System} {loop : Loop} (control : s.control = .calling loop)
      (none_active : s.manager.activeChildren = 0) :
      Step s { s with control := loop.resume false }
  | pollNothing {s : System} {loop : Loop} (control : s.control = .calling loop)
      (some_active : s.manager.activeChildren ≠ 0)
      (blocking : loop.blocking = false)
      (quiet : ∀ slot ∈ s.kernel.poll s.manager.slots, slot.revents = false) :
      Step s
        { s with
          control := loop.resume false
          manager := { s.manager with slots := s.kernel.poll s.manager.slots } }
  | pollEvents {s : System} {loop : Loop} (control : s.control = .calling loop)
      (some_active : s.manager.activeChildren ≠ 0)
      (event : ∃ slot ∈ s.kernel.poll s.manager.slots, slot.revents = true) :
      Step s
        { s with
          control := .scanning loop 0
          manager := { s.manager with slots := s.kernel.poll s.manager.slots } }
  | scanSkip {s : System} {loop : Loop} {i : Nat} {slot : Slot}
      (control : s.control = .scanning loop i)
      (found : s.manager.slots[i]? = some slot)
      (quiet : slot.revents = false) :
      Step s { s with control := .scanning loop (i + 1) }
  | scanData {s : System} {loop : Loop} {i index : Nat} {slot : Slot}
      {child : ChildProcess} {data : Text} {kernel : Kernel}
      (control : s.control = .scanning loop i)
      (found : s.manager.slots[i]? = some slot)
      (event : slot.revents = true)
      (mapped : slot.child = some index)
      (known : s.manager.children[index]? = some child)
      (reads : s.kernel.Reads child.pipe data kernel)
      (some_data : data ≠ []) :
      Step s
        { s with
          control := .scanning loop (i + 1)
          manager := s.manager.receive i slot index child data
          kernel := kernel }
  | scanEof {s : System} {loop : Loop} {i index : Nat} {slot : Slot}
      {child : ChildProcess} {kernel : Kernel}
      (control : s.control = .scanning loop i)
      (found : s.manager.slots[i]? = some slot)
      (event : slot.revents = true)
      (mapped : slot.child = some index)
      (known : s.manager.children[index]? = some child)
      (reads : s.kernel.Reads child.pipe [] kernel) :
      Step s
        { s with
          control := .scanning loop (i + 1)
          manager := s.manager.receive i slot index child []
          kernel := kernel.close child.pipe }
  | scanFault {s : System} {loop : Loop} {i : Nat} {slot : Slot}
      (control : s.control = .scanning loop i)
      (found : s.manager.slots[i]? = some slot)
      (event : slot.revents = true)
      (unreadable : ∀ index child, slot.child = some index →
        s.manager.children[index]? = some child →
        s.kernel.files child.pipe = none) :
      Step s { s with control := .failed }
  | scanEnd {s : System} {loop : Loop} {i : Nat} (control : s.control = .scanning loop i)
      (past_end : s.manager.slots[i]? = none) :
      Step s { s with control := loop.resume true }
  | throttle {s : System} (control : s.control = .throttling)
      (full : s.manager.maxActiveChildren ≤ s.manager.activeChildren) :
      Step s { s with control := .calling .throttle }
  | fork {s : System} {rest : List Command} {fd : Nat} {manager : Manager}
      (control : s.control = .throttling)
      (room : s.manager.activeChildren < s.manager.maxActiveChildren)
      (next : s.todo = .verify :: rest)
      (fresh : s.kernel.files fd = none)
      (forked : s.manager.verify fd = some manager) :
      Step s
        { control := .idle
          todo := rest
          manager := manager
          kernel := s.kernel.pipe fd }
  | forkFails {s : System} (control : s.control = .throttling)
      (room : s.manager.activeChildren < s.manager.maxActiveChildren) :
      Step s { s with control := .exited }
  | forkFault {s : System} {fd : Nat} (control : s.control = .throttling)
      (room : s.manager.activeChildren < s.manager.maxActiveChildren)
      (fresh : s.kernel.files fd = none)
      (fault : s.manager.verify fd = none) :
      Step s { s with control := .failed }
  | join {s : System} {manager : Manager} (control : s.control = .joining)
      (nobody : s.manager.activeChildren = 0)
      (emitted : s.manager.emitOutput = some (true, manager)) :
      Step s { s with control := .done, manager := manager }
  | joinFault {s : System} (control : s.control = .joining)
      (fault : s.manager.activeChildren ≠ 0 ∨
        ∀ manager, s.manager.emitOutput ≠ some (true, manager)) :
      Step s { s with control := .failed }

def Reachable (maxActiveChildren : Nat) (program : List Command) (s : System) : Prop :=
  Relation.ReflTransGen Step (start maxActiveChildren program) s

/-- One line of the parent's text: a line of its own, or the placeholder of a
child. -/
inductive Entry where
  | line (own : Line)
  | report (index : Nat)

namespace Entry

def text : Entry → Text
  | .line own => own.text
  | .report index => placeholder index

def resolved (sent : Nat → Text) : Entry → Text
  | .line own => own.text
  | .report index => sent index

def reporter : Entry → Option Nat
  | .line _ => none
  | .report index => some index

end Entry

/-- The parent's text, when `next` children have been forked before. -/
def entries : Nat → List Command → List Entry
  | _, [] => []
  | next, .print line :: rest => .line line :: entries next rest
  | next, .verify :: rest => .report next :: entries (next + 1) rest

def sequentialOutput (program : List Command) (sent : Nat → Text) : Text :=
  (entries 0 program).flatMap (Entry.resolved sent)

end AliveNext.Util.Parallel
