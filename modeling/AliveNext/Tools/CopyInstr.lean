import AliveNext.Lib.Fallible

/-!
# Instructions that the target takes over from the source

`parse` of `tools/alive_parser.cpp` for a transformation whose two functions are one block each.
An instruction of the source that the target does not give is copied: when a target instruction
reads its name, and, for the rest, in a sweep over the names of the source at the end.

Values are pointers: inputs and instructions are known by their names, constants by their place
in the constants of their function. Types are left out.
-/

namespace AliveNext.Tools.CopyInstr

/-- The names of `identifiers`: registers and symbolic constants differ in their first letter. -/
inductive Ident where
  | reg (name : String)
  | const (name : String)
  deriving DecidableEq

/-- The function that a value belongs to. -/
inductive Side where
  | src
  | tgt
  deriving DecidableEq

/-- A `Value*`. Instructions without a name are read by the implicit `ret` only. -/
inductive Value where
  | input (side : Side) (name : String)
  | constInput (side : Side) (name : String)
  | constant (side : Side) (index : Nat)
  | instr (side : Side) (name : String)
  | unnamed (side : Side)
  deriving DecidableEq

/-- The constants that `get_or_copy_instr` copies. -/
inductive Literal where
  | undef
  | poison
  | null
  | int (n : Int)
  | float (text : String)

inductive Constant where
  | literal (l : Literal)
  | constFn (name : String) (args : List Value)
  | aggregate (vals : List Value)

/-- An instruction with its opcode and all that belongs to it (flags, predicates, callees). -/
structure Instr where
  name : Option String
  op : String
  operands : List Value
  isReturn : Bool := false

/-- `Instr::rauw`: the operand `what` is replaced wherever it stands. -/
def Instr.rauw (i : Instr) (what with_ : Value) : Instr :=
  { i with operands := i.operands.map fun op => if op = what then with_ else op }

/-- The function that is parsed, one block, with `identifiers`. -/
structure State where
  side : Side
  inputs : List Value := []
  constants : List Constant := []
  instrs : List Instr := []
  identifiers : List (Ident × Value) := []

/-- Why the parser does not return: a `ParseException`, an assertion, `UNREACHABLE`, and a
recursion that does not come to an end. -/
inductive Failure where
  | error (message : String)
  | assertion
  | unreachable
  | fuel

namespace State

variable (st : State)

/-- `identifiers.find`. -/
def find (id : Ident) : Option Value := st.identifiers.lookup id

/-- `identifiers.emplace` for a name that is not there. -/
def emplace (id : Ident) (v : Value) : State :=
  { st with identifiers := st.identifiers ++ [(id, v)] }

/-- `fn->addConstant`, with the new value. -/
def addConstant (c : Constant) : Value × State :=
  (.constant st.side st.constants.length, { st with constants := st.constants ++ [c] })

/-- `fn->addInput` and the entry for it, with the new value. -/
def addInput (id : Ident) (v : Value) : Value × State :=
  (v, { st with inputs := st.inputs ++ [v], identifiers := st.identifiers ++ [(id, v)] })

/-- `bb->addInstr`. -/
def addInstr (i : Instr) : State := { st with instrs := st.instrs ++ [i] }

/-- The end of `get_or_copy_instr`: before the `ret` if the block ends with one. -/
def addCopied (i : Instr) : State :=
  match st.instrs.getLast? with
  | some last =>
    if last.isReturn then { st with instrs := st.instrs.dropLast ++ [i, last] }
    else st.addInstr i
  | none => st.addInstr i

def names : List String := st.instrs.filterMap Instr.name

end State

/-- The loop over the operands: the new instruction with one more of them replaced. `recur` is
the call for an operand that is an instruction. -/
def copyOperand (src : State)
    (recur : String → State → Except Failure (Value × State)) (acc : Instr × State)
    (op : Value) : Except Failure (Instr × State) :=
  match op with
  | .input .src name =>
    match acc.2.find (.reg name) with
    | some v => .ok (acc.1.rauw op v, acc.2)
    | none => .error .assertion
  | .constant .src index =>
    match src.constants[index]? with
    | some (.literal l) =>
      let (v, st) := acc.2.addConstant (.literal l)
      .ok (acc.1.rauw op v, st)
    | some (.constFn _ _) => .error .assertion
    | some (.aggregate _) | none => .error .unreachable
  | .constInput .src _ => .error .assertion
  | .instr .src name => do
    let (v, st) ← recur name acc.2
    return (acc.1.rauw op v, st)
  | _ => .error .unreachable

/-- `get_or_copy_instr`, with the state in which the source was parsed. -/
def getOrCopyInstr (src : State) : (fuel : Nat) → String → State → Except Failure (Value × State)
  | 0, _, _ => .error .fuel
  | fuel + 1, name, st =>
    match st.find (.reg name) with
    | some v => .ok (v, st)
    | none =>
      match src.find (.reg name) with
      | none => .error (.error ("Cannot declare an input variable in the target: " ++ name))
      | some _ =>
        match src.instrs.find? (·.name = some name) with
        | none => .error .assertion
        | some instrSrc => do
          let (tgtInstr, st) ←
            instrSrc.operands.foldlM (copyOperand src (getOrCopyInstr src fuel)) (instrSrc, st)
          return (.instr .tgt name, (st.emplace (.reg name) (.instr .tgt name)).addCopied tgtInstr)

/-- An operand as it is written. -/
inductive Term where
  | reg (name : String)
  | literal (l : Literal)
  | const (name : String)
  | fn (name : String) (args : List Term)
  | aggregate (vals : List Term)

/-- An instruction as it is written; `assume` and `unreachable` have no name. -/
structure Stmt where
  name : Option String
  op : String
  operands : List Term

/-- A function of one block, with its `ret` if it is written. -/
structure Code where
  stmts : List Stmt
  ret : Option Term

/-- The terms of the precondition, the source and the target. -/
structure Program where
  pre : List Term
  src : Code
  tgt : Code

section

mutual

def Term.registers : Term → List String
  | .reg name => [name]
  | .literal _ | .const _ => []
  | .fn _ args => registersAll args
  | .aggregate vals => registersAll vals

def registersAll : List Term → List String
  | [] => []
  | t :: ts => t.registers ++ registersAll ts

end

end

namespace Code

def defined (code : Code) : List String := code.stmts.filterMap Stmt.name

def reads (code : Code) : List String :=
  (code.stmts.flatMap fun s => registersAll s.operands) ++ registersAll code.ret.toList

end Code

section

variable (miss : String → State → Except Failure (Value × State))

mutual

/-- `parse_operand` and `get_constant`; `miss` is what happens to a register that is not known. -/
def parseOperand : Term → State → Except Failure (Value × State)
  | .reg name, st =>
    match st.find (.reg name) with
    | some v => .ok (v, st)
    | none => miss name st
  | .literal l, st => .ok (st.addConstant (.literal l))
  | .const name, st =>
    match st.find (.const name) with
    | some v => .ok (v, st)
    | none => .ok (st.addInput (.const name) (.constInput st.side name))
  | .fn name args, st => do
    let (vals, st) ← parseOperands args st
    return st.addConstant (.constFn name vals)
  | .aggregate vals, st => do
    let (vals, st) ← parseOperands vals st
    return st.addConstant (.aggregate vals)

def parseOperands : List Term → State → Except Failure (List Value × State)
  | [], st => .ok ([], st)
  | t :: ts, st => do
    let (v, st) ← parseOperand t st
    let (vs, st) ← parseOperands ts st
    return (v :: vs, st)

end

/-- A turn of the loop of `parse_fn`. -/
def parseStmt (st : State) (s : Stmt) : Except Failure State := do
  let (vals, st) ← parseOperands miss s.operands st
  let i : Instr := { name := s.name, op := s.op, operands := vals }
  match s.name with
  | none => return st.addInstr i
  | some name =>
    if (st.find (.reg name)).isSome then
      .error (.error ("Duplicated assignment to " ++ name))
    else return (st.emplace (.reg name) (.instr st.side name)).addInstr i

def Instr.value (side : Side) (i : Instr) : Value :=
  match i.name with
  | some name => .instr side name
  | none => .unnamed side

/-- `parse_fn`, which returns the last value if there is no `ret`. -/
def parseFn (code : Code) (st : State) : Except Failure State := do
  let st ← code.stmts.foldlM (parseStmt miss) st
  match code.ret with
  | some t =>
    let (v, st) ← parseOperand miss t st
    return st.addInstr { name := none, op := "ret", operands := [v], isReturn := true }
  | none =>
    match st.instrs.getLast? with
    | none => .error (.error "Block cannot be empty")
    | some last =>
      return st.addInstr
        { name := none, op := "ret", operands := [last.value st.side], isReturn := true }

end

def newInput (name : String) (st : State) : Except Failure (Value × State) :=
  .ok (st.addInput (.reg name) (.input .src name))

def parseSource (p : Program) : Except Failure State := do
  let (_, st) ← parseOperands newInput p.pre { side := .src }
  parseFn newInput p.src st

def copyInput (st : State) : Value → State
  | .input _ name => (st.addInput (.reg name) (.input .tgt name)).2
  | .constInput _ name => (st.addInput (.const name) (.constInput .tgt name)).2
  | _ => st

def copyInputs (src : State) : State := src.inputs.foldl copyInput { side := .tgt }

def copyFuel (src : State) : Nat := src.instrs.length + 1

def parseTarget (p : Program) (src : State) : Except Failure State :=
  parseFn (getOrCopyInstr src (copyFuel src)) p.tgt (copyInputs src)

/-- A turn of the loop over `identifiers_src`. A symbolic constant is never an instruction. -/
def sweepStep (src st : State) (id : Ident) : Except Failure State :=
  match id with
  | .reg name => do
    let (_, st) ← getOrCopyInstr src (copyFuel src) name st
    return st
  | .const _ => if (st.find id).isSome then .ok st else .error .assertion

/-- `parse` of one transformation, where the hash table of the source is traversed in this
order: the state of the source and that of the target. -/
def parse (p : Program) (order : List Ident) : Except Failure (State × State) := do
  let src ← parseSource p
  let st ← parseTarget p src
  let tgt ← order.foldlM (sweepStep src) st
  return (src, tgt)

end AliveNext.Tools.CopyInstr
