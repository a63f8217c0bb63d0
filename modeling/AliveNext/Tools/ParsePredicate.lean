import Mathlib

/-!
# Parsing a precondition

`parse_predicate` hands a pending operand and its connective to the call that reads the next
operand (`tools/alive_parser.cpp`). The arguments of a call are read by `parse_operand`, which
is a parameter here.
-/

namespace AliveNext.Tools.ParsePredicate

inductive Token where
  | lparen
  | rparen
  | comma
  | band
  | bor
  | eof
  | identifier (name : String)
  | constant (name : String)
  | other (code : Nat)
  deriving DecidableEq, Repr

/-! ## The tokenizer -/

/-- `tokenizer_t`, with what the lexer has still to read. -/
structure Tokenizer where
  last : Token
  returned : Bool
  input : List Token
  deriving DecidableEq

namespace Tokenizer

def yylex : List Token → Token × List Token
  | [] => (.eof, [])
  | t :: input => (t, input)

/-- `operator*`. -/
def next (s : Tokenizer) : Token × Tokenizer :=
  if s.returned then (s.last, { s with returned := false })
  else
    let (t, input) := yylex s.input
    (t, { s with input := input })

def peek (s : Tokenizer) : Token × Tokenizer :=
  if s.returned then (s.last, s)
  else
    let (t, input) := yylex s.input
    (t, ⟨t, true, input⟩)

def consumeIf (expected : Token) (s : Tokenizer) : Bool × Tokenizer :=
  let (t, s) := s.peek
  if t = expected then (true, { s with returned := false }) else (false, s)

/-- `ensure`, which fails with an error. -/
def ensure (expected : Token) (s : Tokenizer) : Option Tokenizer :=
  let (t, s) := s.next
  if t = expected then some s else none

def unget (t : Token) (s : Tokenizer) : Tokenizer := { s with last := t, returned := true }

def unread (s : Tokenizer) : List Token := if s.returned then s.last :: s.input else s.input

variable {s : Tokenizer} {t : Token} {rest : List Token}

section

variable (stream : s.unread = t :: rest)

include stream

theorem next_of_unread : ∃ s', s.next = (t, s') ∧ s'.unread = rest ∧ s'.returned = false := by
  obtain ⟨last, returned, input⟩ := s
  cases returned with
  | true =>
    cases stream
    exact ⟨_, rfl, rfl, rfl⟩
  | false =>
    cases stream
    exact ⟨_, rfl, rfl, rfl⟩

theorem ensure_of_unread : ∃ s', s.ensure t = some s' ∧ s'.unread = rest := by
  obtain ⟨s', read, stream', -⟩ := next_of_unread stream
  exact ⟨s', by rw [ensure, read]; exact if_pos rfl, stream'⟩

theorem ensure_fails {expected : Token} (other : t ≠ expected) : s.ensure expected = none := by
  obtain ⟨s', read, -⟩ := next_of_unread stream
  rw [ensure, read]
  exact if_neg other

theorem consumeIf_of_unread : ∃ s', s.consumeIf t = (true, s') ∧ s'.unread = rest := by
  obtain ⟨last, returned, input⟩ := s
  cases returned with
  | true =>
    cases stream
    exact ⟨_, if_pos rfl, rfl⟩
  | false =>
    cases stream
    exact ⟨_, if_pos rfl, rfl⟩

theorem consumeIf_fails {expected : Token} (other : t ≠ expected) :
    ∃ s', s.consumeIf expected = (false, s') ∧ s'.unread = t :: rest := by
  obtain ⟨last, returned, input⟩ := s
  cases returned with
  | true =>
    cases stream
    exact ⟨_, if_neg other, rfl⟩
  | false =>
    cases stream
    exact ⟨_, if_neg other, rfl⟩

end

theorem unread_unget (read : s.returned = false) : (s.unget t).unread = t :: s.unread := by
  unfold unget unread
  rw [read]
  rfl

end Tokenizer

/-! ## Predicates -/

/-- The functions of `FnPred`. -/
inductive Fn where
  | addNSW | addNUW | subNSW | subNUW | mulNSW | mulNUW | shlNSW | shlNUW
  deriving DecidableEq, Repr

/-- `fn_data`: the names and the numbers of arguments. -/
def fnData : List (String × Nat × Fn) :=
  [("WillNotOverflowSignedAdd", 2, .addNSW), ("WillNotOverflowUnsignedAdd", 2, .addNUW),
    ("WillNotOverflowSignedSub", 2, .subNSW), ("WillNotOverflowUnsignedSub", 2, .subNUW),
    ("WillNotOverflowSignedMul", 2, .mulNSW), ("WillNotOverflowUnsignedMul", 2, .mulNUW),
    ("WillNotOverflowSignedShl", 2, .shlNSW), ("WillNotOverflowUnsignedShl", 2, .shlNUW)]

/-- The constructor of `FnPred` throws on an unknown name or a wrong number of arguments. -/
def findFn (name : String) (args : Nat) : Option Fn :=
  match fnData.find? fun entry => entry.1 = name with
  | some (_, expected, f) => if args = expected then some f else none
  | none => none

/-- `BoolPred::Pred`. -/
inductive Connective where
  | and
  | or
  deriving DecidableEq, Repr

inductive Predicate (α : Type) where
  | fn (f : Fn) (args : List α)
  | bool (lhs rhs : Predicate α) (pred : Connective)
  deriving DecidableEq

namespace Predicate

variable {α : Type}

/-- `toSMT`, where `v` gives the meaning of the calls. -/
def toSMT (v : Fn → List α → Bool) : Predicate α → Bool
  | .fn f args => v f args
  | .bool lhs rhs .and => lhs.toSMT v && rhs.toSMT v
  | .bool lhs rhs .or => lhs.toSMT v || rhs.toSMT v

def calls : Predicate α → List (Fn × List α)
  | .fn f args => [(f, args)]
  | .bool lhs rhs _ => lhs.calls ++ rhs.calls

theorem calls_pos (q : Predicate α) : 0 < q.calls.length := by
  induction q with
  | fn f args => exact Nat.one_pos
  | bool lhs rhs pred left _ =>
    rw [calls, List.length_append]
    omega

end Predicate

def Connective.token : Connective → Token
  | .and => .band
  | .or => .bor

section

variable {α : Type} (parseOperand : Tokenizer → Option (α × Tokenizer))

/-- The loop over the arguments. -/
def parseArgs : Nat → Tokenizer → Option (List α × Tokenizer)
  | 0, _ => none
  | fuel + 1, s => do
    let (arg, s) ← parseOperand s
    let (more, s) := s.consumeIf .comma
    if more then
      let (args, s) ← parseArgs fuel s
      return (arg :: args, s)
    else return ([arg], s)

/-- The label `parse_more`, where `again` reads the operand after a connective. -/
def parseMore (again : Predicate α → Token → Tokenizer → Option (Predicate α × Tokenizer))
    (newpred : Predicate α) (s : Tokenizer) : Option (Predicate α × Tokenizer) :=
  match s.next with
  | (.band, s) => again newpred .band s
  | (.bor, s) => again newpred .bor s
  | (t, s) => some (newpred, s.unget t)

/-- After an operand in parentheses that follows `||`. -/
def parseOr (again : Predicate α → Token → Tokenizer → Option (Predicate α × Tokenizer))
    (last newpred : Predicate α) (s : Tokenizer) : Option (Predicate α × Tokenizer) :=
  match s.next with
  | (.band, s) => do
    let (newpred, s) ← again newpred .band s
    return (.bool last newpred .or, s)
  | (.bor, s) => again (.bool last newpred .or) .bor s
  -- Here `last_t` is `BOR`.
  | (t, s) => some (.bool last newpred .or, s.unget t)

def afterParens (again : Predicate α → Token → Tokenizer → Option (Predicate α × Tokenizer))
    (last : Option (Predicate α)) (lastT : Token) (newpred : Predicate α) (s : Tokenizer) :
    Option (Predicate α × Tokenizer) :=
  match last with
  | none => parseMore again newpred s
  | some last =>
    if lastT = .band then parseMore again (.bool last newpred .and) s
    else parseOr again last newpred s

/-- `parse_predicate`, with a bound on the depth of the recursion. -/
def parsePredicate : Nat → Option (Predicate α) → Token → Tokenizer →
    Option (Predicate α × Tokenizer)
  | 0, _, _, _ => none
  | fuel + 1, last, lastT, s =>
    let again (last : Predicate α) := parsePredicate fuel (some last)
    match s.next with
    | (.lparen, s) => do
      let (newpred, s) ← parsePredicate fuel none .eof s
      let s ← s.ensure .rparen
      afterParens again last lastT newpred s
    | (.identifier name, s) => do
      let s ← s.ensure .lparen
      let (args, s) ← parseArgs parseOperand (fuel + 1) s
      let s ← s.ensure .rparen
      let f ← findFn name args.length
      return (.fn f args, s)
    -- A constant runs into `UNREACHABLE`, and another token is an error.
    | _ => none

/-- `parse_predicate()`, as `parse_pre` calls it. -/
def parsePre (s : Tokenizer) : Option (Predicate α × Tokenizer) :=
  parsePredicate parseOperand (s.unread.length + 1) none .eof s

end

/-! ## Written predicates -/

/-- An argument as it is written: `parseOperand` reads it before a comma or a parenthesis. -/
structure Argument {α : Type} (parseOperand : Tokenizer → Option (α × Tokenizer)) where
  tokens : List Token
  value : α
  some_token : tokens ≠ []
  reads : ∀ (s : Tokenizer) (t : Token) (rest : List Token), t = .comma ∨ t = .rparen →
    s.unread = tokens ++ t :: rest →
    ∃ s', parseOperand s = some (value, s') ∧ s'.unread = t :: rest

structure Call {α : Type} (parseOperand : Tokenizer → Option (α × Tokenizer)) where
  name : String
  first : Argument parseOperand
  more : List (Argument parseOperand)
  fn : Fn
  known : findFn name (more.length + 1) = some fn

variable {α : Type} {parseOperand : Tokenizer → Option (α × Tokenizer)}

def argTokens : List (Argument parseOperand) → List Token
  | [] => [.rparen]
  | arg :: args => .comma :: (arg.tokens ++ argTokens args)

namespace Call

def tokens (c : Call parseOperand) : List Token :=
  .identifier c.name :: .lparen :: (c.first.tokens ++ argTokens c.more)

def args (c : Call parseOperand) : List α :=
  c.first.value :: c.more.map Argument.value

def predicate (c : Call parseOperand) : Predicate α := .fn c.fn c.args

end Call

/-- A predicate as it is written: an operand, or an operand with a connective and the rest. -/
inductive Written {α : Type} (parseOperand : Tokenizer → Option (α × Tokenizer)) where
  | call (c : Call parseOperand)
  | parens (w : Written parseOperand)
  | callThen (c : Call parseOperand) (op : Connective) (rest : Written parseOperand)
  | parensThen (w : Written parseOperand) (op : Connective) (rest : Written parseOperand)

namespace Written

def tokens : Written parseOperand → List Token
  | .call c => c.tokens
  | .parens w => .lparen :: (w.tokens ++ [.rparen])
  | .callThen c op rest => c.tokens ++ op.token :: rest.tokens
  | .parensThen w op rest => .lparen :: (w.tokens ++ .rparen :: op.token :: rest.tokens)

def calls : Written parseOperand → List (Fn × List α)
  | .call c => [(c.fn, c.args)]
  | .parens w => w.calls
  | .callThen c _ rest => (c.fn, c.args) :: rest.calls
  | .parensThen w _ rest => w.calls ++ rest.calls

/-- One operand before the meaning of the rest: the conjunction up to the first `||`, and the
disjunction of what follows it. -/
def before (x : Bool) (op : Connective) (rest : Bool × Bool) : Bool × Bool :=
  match op with
  | .and => (x && rest.1, rest.2)
  | .or => (x, rest.1 || rest.2)

/-- The conjunction up to the first `||`, and the disjunction of what follows it. -/
def parts (v : Fn → List α → Bool) : Written parseOperand → Bool × Bool
  | .call c => (v c.fn c.args, false)
  | .parens w => ((w.parts v).1 || (w.parts v).2, false)
  | .callThen c op rest => before (v c.fn c.args) op (rest.parts v)
  | .parensThen w op rest => before ((w.parts v).1 || (w.parts v).2) op (rest.parts v)

/-- The meaning of a predicate in which `&&` binds tighter than `||`. -/
def meaning (v : Fn → List α → Bool) (w : Written parseOperand) : Bool :=
  (w.parts v).1 || (w.parts v).2

mutual

def Parenthesised : Written parseOperand → Prop
  | .call _ => True
  | .parens w => w.Parenthesised
  | .callThen _ _ _ => False
  | .parensThen w _ rest => w.Parenthesised ∧ rest.Operands

def Operands : Written parseOperand → Prop
  | .call _ => False
  | .parens w => w.Parenthesised
  | .callThen _ _ _ => False
  | .parensThen w _ rest => w.Parenthesised ∧ rest.Operands

end

def parsed (last : Option (Predicate α × Connective)) :
    Written parseOperand → Option (Predicate α × List Token)
  | .call c => some (c.predicate, [])
  | .callThen c op rest => some (c.predicate, op.token :: rest.tokens)
  | .parens w =>
    match w.parsed none with
    | some (newpred, []) =>
      match last with
      | none => some (newpred, [])
      | some (last, op) => some (.bool last newpred op, [])
    | _ => none
  | .parensThen w op' rest =>
    match w.parsed none with
    | some (newpred, []) =>
      match last, op' with
      | none, op' => rest.parsed (some (newpred, op'))
      | some (last, .and), op' => rest.parsed (some (.bool last newpred .and, op'))
      | some (last, .or), .and =>
        (rest.parsed (some (newpred, .and))).map fun result => (.bool last result.1 .or, result.2)
      | some (last, .or), .or => rest.parsed (some (.bool last newpred .or, .or))
    | _ => none

end Written

section

variable {s : Tokenizer} {t : Token} {rest : List Token} {q : Predicate α} {fuel : Nat}

theorem parseArgs_written (arg : Argument parseOperand) (args : List (Argument parseOperand)) :
    ∀ (fuel : Nat) (s : Tokenizer), args.length < fuel →
      s.unread = arg.tokens ++ (argTokens args ++ rest) →
      ∃ s', parseArgs parseOperand fuel s = some (arg.value :: args.map Argument.value, s') ∧
        s'.unread = .rparen :: rest := by
  induction args generalizing arg with
  | nil =>
    rintro (_ | fuel) s enough stream
    · exact absurd enough (Nat.not_lt_zero _)
    · obtain ⟨s1, read, stream⟩ := arg.reads s .rparen rest (.inr rfl) stream
      obtain ⟨s2, last, stream⟩ := Tokenizer.consumeIf_fails stream
        (show Token.rparen ≠ .comma by decide)
      refine ⟨s2, ?_, stream⟩
      simp [parseArgs, read, last]
  | cons arg' args ih =>
    rintro (_ | fuel) s enough stream
    · exact absurd enough (Nat.not_lt_zero _)
    · rw [argTokens, List.cons_append, List.append_assoc] at stream
      obtain ⟨s1, read, stream⟩ := arg.reads s .comma _ (.inl rfl) stream
      obtain ⟨s2, comma, stream⟩ := Tokenizer.consumeIf_of_unread stream
      obtain ⟨s3, reads, stream⟩ := ih arg' fuel s2 (Nat.lt_of_succ_lt_succ enough) stream
      refine ⟨s3, ?_, stream⟩
      simp [parseArgs, read, comma, reads]

theorem length_argTokens (args : List (Argument parseOperand)) :
    args.length < (argTokens args).length := by
  induction args with
  | nil => exact Nat.one_pos
  | cons arg args ih =>
    rw [argTokens, List.length_cons, List.length_cons, List.length_append]
    omega

theorem parsePredicate_call {last : Option (Predicate α)} (c : Call parseOperand)
    (enough : c.tokens.length ≤ fuel) (stream : s.unread = c.tokens ++ rest) :
    ∃ s', parsePredicate parseOperand (fuel + 1) last t s = some (c.predicate, s') ∧
      s'.unread = rest := by
  have short := length_argTokens c.more
  rw [Call.tokens, List.length_cons, List.length_cons, List.length_append] at enough
  rw [Call.tokens, List.cons_append, List.cons_append, List.append_assoc] at stream
  obtain ⟨s1, name, stream, -⟩ := Tokenizer.next_of_unread stream
  obtain ⟨s2, paren, stream⟩ := Tokenizer.ensure_of_unread stream
  obtain ⟨s3, args, stream⟩ := parseArgs_written c.first c.more (fuel + 1) s2 (by omega) stream
  obtain ⟨s4, close, stream⟩ := Tokenizer.ensure_of_unread stream
  refine ⟨s4, ?_, stream⟩
  simp [parsePredicate, name, paren, args, close, c.known, Call.predicate, Call.args]

def Yields (outcome : Option (Predicate α × Tokenizer))
    (expected : Option (Predicate α × List Token)) (rest : List Token) : Prop :=
  match expected with
  | none => outcome = none
  | some (q, left) => ∃ s', outcome = some (q, s') ∧ s'.unread = left ++ rest

def lastToken : Option (Predicate α × Connective) → Token
  | none => .eof
  | some (_, op) => op.token

section

variable {again : Predicate α → Token → Tokenizer → Option (Predicate α × Tokenizer)}
  {last : Predicate α}

theorem afterParens_none : afterParens again none t q s = parseMore again q s := rfl

theorem afterParens_and :
    afterParens again (some last) .band q s = parseMore again (.bool last q .and) s := by
  simp [afterParens]

theorem afterParens_or : afterParens again (some last) .bor q s = parseOr again last q s := by
  simp [afterParens]

end

variable {last : Option (Predicate α × Connective)}
  {again : Predicate α → Token → Tokenizer → Option (Predicate α × Tokenizer)} {op : Connective}
  {w : Written parseOperand}

theorem parseMore_stops (stream : s.unread = t :: rest) (notAnd : t ≠ .band) (notOr : t ≠ .bor) :
    ∃ s', parseMore again q s = some (q, s') ∧ s'.unread = t :: rest := by
  obtain ⟨s1, read, stream, empty⟩ := Tokenizer.next_of_unread stream
  refine ⟨s1.unget t, ?_, by rw [Tokenizer.unread_unget empty, stream]⟩
  unfold parseMore
  rw [read]
  cases t <;> first | rfl | exact absurd rfl notAnd | exact absurd rfl notOr

theorem parseOr_stops
    {last : Predicate α} (stream : s.unread = t :: rest) (notAnd : t ≠ .band) (notOr : t ≠ .bor) :
    ∃ s', parseOr again last q s = some (.bool last q .or, s') ∧ s'.unread = t :: rest := by
  obtain ⟨s1, read, stream, empty⟩ := Tokenizer.next_of_unread stream
  refine ⟨s1.unget t, ?_, by rw [Tokenizer.unread_unget empty, stream]⟩
  unfold parseOr
  rw [read]
  cases t <;> first | rfl | exact absurd rfl notAnd | exact absurd rfl notOr

theorem parseMore_goes_on (stream : s.unread = op.token :: rest) :
    ∃ s', parseMore again q s = again q op.token s' ∧ s'.unread = rest := by
  obtain ⟨s1, read, stream, -⟩ := Tokenizer.next_of_unread stream
  refine ⟨s1, ?_, stream⟩
  unfold parseMore
  rw [read]
  cases op <;> rfl

theorem parsed_left {left : List Token} (result : w.parsed last = some (q, left)) :
    left = [] ∨ ∃ op left', left = Connective.token op :: left' := by
  induction w generalizing last q with
  | call c =>
    cases result
    exact .inl rfl
  | callThen c op rest _ =>
    cases result
    exact .inr ⟨op, _, rfl⟩
  | parens w _ =>
    unfold Written.parsed at result
    split at result
    · split at result <;> cases result <;> exact .inl rfl
    · cases result
  | parensThen w op rest _ ih =>
    unfold Written.parsed at result
    split at result
    · split at result
      · exact ih result
      · exact ih result
      · obtain ⟨⟨q', left'⟩, inner, same⟩ := Option.map_eq_some_iff.1 result
        cases same
        exact ih inner
      · exact ih result
    · cases result

theorem parse_parens (last : Option (Predicate α))
    (stream : s.unread = .lparen :: (w.tokens ++ .rparen :: rest))
    (inner : ∀ s', s'.unread = w.tokens ++ .rparen :: rest →
      Yields (parsePredicate parseOperand fuel none .eof s') (w.parsed none) (.rparen :: rest)) :
    (w.parsed none = none ∨ (∃ q left, w.parsed none = some (q, left) ∧ left ≠ [])) ∧
        parsePredicate parseOperand (fuel + 1) last t s = none ∨
      ∃ q s', w.parsed none = some (q, []) ∧ s'.unread = rest ∧
        parsePredicate parseOperand (fuel + 1) last t s =
          afterParens (fun last => parsePredicate parseOperand fuel (some last)) last t q s' := by
  obtain ⟨s1, paren, stream, -⟩ := Tokenizer.next_of_unread stream
  have inner := inner s1 stream
  unfold Yields at inner
  rw [parsePredicate]
  simp only [paren]
  cases result : w.parsed none with
  | none =>
    rw [result] at inner
    exact .inl ⟨.inl rfl, by rw [inner]; rfl⟩
  | some pair =>
    obtain ⟨q, left⟩ := pair
    rw [result] at inner
    obtain ⟨s2, read, stream⟩ := inner
    rcases parsed_left result with rfl | ⟨op, left', rfl⟩
    · obtain ⟨s3, close, stream⟩ := Tokenizer.ensure_of_unread stream
      refine .inr ⟨q, s3, rfl, stream, ?_⟩
      rw [read]
      simp only [Option.bind_eq_bind, Option.bind_some, close]
    · have fails := Tokenizer.ensure_fails stream (show op.token ≠ .rparen by cases op <;> decide)
      refine .inl ⟨.inr ⟨q, _, rfl, List.cons_ne_nil _ _⟩, ?_⟩
      rw [read]
      simp only [Option.bind_eq_bind, Option.bind_some, fails, Option.bind_none]

theorem parsed_parens_fails
    (fails : w.parsed none = none ∨ (∃ q left, w.parsed none = some (q, left) ∧ left ≠ [])) :
    (Written.parens w).parsed last = none ∧
      ∀ op rest, (Written.parensThen w op rest).parsed last = none := by
  rcases fails with none | ⟨q, left, result, more⟩
  · exact ⟨by rw [Written.parsed, none], fun op rest => by rw [Written.parsed, none]⟩
  · cases left with
    | nil => exact absurd rfl more
    | cons t left =>
      exact ⟨by rw [Written.parsed, result], fun op rest => by rw [Written.parsed, result]⟩

theorem parens_yields (notAnd : t ≠ .band)
    (notOr : t ≠ .bor) (stream : s.unread = .lparen :: (w.tokens ++ .rparen :: t :: rest))
    (inner : ∀ s', s'.unread = w.tokens ++ .rparen :: t :: rest →
      Yields (parsePredicate parseOperand fuel none .eof s') (w.parsed none)
        (.rparen :: t :: rest)) :
    Yields (parsePredicate parseOperand (fuel + 1) (last.map Prod.fst) (lastToken last) s)
      ((Written.parens w).parsed last) (t :: rest) := by
  rcases parse_parens (t := lastToken last) (last.map Prod.fst) stream inner with
    ⟨fails, outcome⟩ | ⟨q, s', result, stream, outcome⟩
  · rw [(parsed_parens_fails fails).1]
    exact outcome
  · rw [Written.parsed, result, outcome]
    rcases last with _ | ⟨last, _ | _⟩
    · rw [lastToken, Option.map_none, afterParens_none]
      exact parseMore_stops stream notAnd notOr
    · rw [lastToken, Option.map_some, Connective.token, afterParens_and]
      exact parseMore_stops stream notAnd notOr
    · rw [lastToken, Option.map_some, Connective.token, afterParens_or]
      exact parseOr_stops stream notAnd notOr

theorem parensThen_yields {later : Written parseOperand}
    (stream : s.unread =
      .lparen :: (w.tokens ++ .rparen :: op.token :: (later.tokens ++ t :: rest)))
    (inner : ∀ s', s'.unread = w.tokens ++ .rparen :: op.token :: (later.tokens ++ t :: rest) →
      Yields (parsePredicate parseOperand fuel none .eof s') (w.parsed none)
        (.rparen :: op.token :: (later.tokens ++ t :: rest)))
    (goesOn : ∀ (last : Predicate α) (op : Connective) s', s'.unread = later.tokens ++ t :: rest →
      Yields (parsePredicate parseOperand fuel (some last) op.token s')
        (later.parsed (some (last, op))) (t :: rest)) :
    Yields (parsePredicate parseOperand (fuel + 1) (last.map Prod.fst) (lastToken last) s)
      ((Written.parensThen w op later).parsed last) (t :: rest) := by
  rcases parse_parens (t := lastToken last) (last.map Prod.fst) stream inner with
    ⟨fails, outcome⟩ | ⟨q, s', result, stream, outcome⟩
  · rw [(parsed_parens_fails fails).2]
    exact outcome
  · rw [Written.parsed, result, outcome]
    rcases last with _ | ⟨last, _ | _⟩
    · obtain ⟨s1, more, stream⟩ := parseMore_goes_on stream
      rw [lastToken, Option.map_none, afterParens_none, more]
      exact goesOn q op s1 stream
    · obtain ⟨s1, more, stream⟩ := parseMore_goes_on stream
      rw [lastToken, Option.map_some, Connective.token, afterParens_and, more]
      exact goesOn (.bool last q .and) op s1 stream
    · obtain ⟨s1, read, stream', -⟩ := Tokenizer.next_of_unread stream
      rw [lastToken, Option.map_some, Connective.token, afterParens_or, parseOr, read]
      cases op with
      | and =>
        have conjunction := goesOn q .and s1 stream'
        change Yields (Option.bind (parsePredicate parseOperand fuel (some q) .band s1) _)
          ((later.parsed (some (q, .and))).map _) (t :: rest)
        unfold Yields at conjunction ⊢
        cases result : later.parsed (some (q, .and)) with
        | none =>
          rw [result] at conjunction
          change Option.bind _ _ = none
          rw [show parsePredicate parseOperand fuel (some q) .band s1 = none from conjunction]
          rfl
        | some pair =>
          rw [result] at conjunction
          obtain ⟨s2, read, stream⟩ := conjunction
          refine ⟨s2, ?_, stream⟩
          rw [show parsePredicate parseOperand fuel (some q) .band s1 = _ from read]
          rfl
      | or => exact goesOn (.bool last q .or) .or s1 stream'

/-- The parser does what `parsed` says, if the recursion is deep enough. -/
theorem parsePredicate_written (w : Written parseOperand) :
    ∀ (last : Option (Predicate α × Connective)) (fuel : Nat) (s : Tokenizer) (t : Token)
      (rest : List Token), w.tokens.length < fuel → t ≠ .band → t ≠ .bor →
      s.unread = w.tokens ++ t :: rest →
      Yields (parsePredicate parseOperand fuel (last.map Prod.fst) (lastToken last) s)
        (w.parsed last) (t :: rest) := by
  induction w with
  | call c =>
    rintro last (_ | fuel) s t rest enough notAnd notOr stream
    · exact absurd enough (Nat.not_lt_zero _)
    · exact parsePredicate_call c (Nat.le_of_lt_succ enough) stream
  | callThen c op later _ =>
    rintro last (_ | fuel) s t rest enough notAnd notOr stream
    · exact absurd enough (Nat.not_lt_zero _)
    · rw [Written.tokens, List.append_assoc] at stream
      rw [Written.tokens, List.length_append] at enough
      exact parsePredicate_call c (by omega) stream
  | parens w ih =>
    rintro last (_ | fuel) s t rest enough notAnd notOr stream
    · exact absurd enough (Nat.not_lt_zero _)
    · rw [Written.tokens, List.length_cons, List.length_append] at enough
      rw [Written.tokens, List.cons_append, List.append_assoc] at stream
      exact parens_yields notAnd notOr stream fun s' stream' =>
        ih none fuel s' .rparen _ (by omega) (by decide) (by decide) stream'
  | parensThen w op later inner goesOn =>
    rintro last (_ | fuel) s t rest enough notAnd notOr stream
    · exact absurd enough (Nat.not_lt_zero _)
    · rw [Written.tokens, List.length_cons, List.length_append, List.length_cons,
        List.length_cons] at enough
      rw [Written.tokens, List.cons_append, List.append_assoc] at stream
      exact parensThen_yields stream
        (fun s' stream' =>
          inner none fuel s' .rparen _ (by omega) (by decide) (by decide) stream')
        (fun q op s' stream' =>
          goesOn (some (q, op)) fuel s' t rest (by omega) notAnd notOr stream')

end

section

variable {q : Predicate α} {w : Written parseOperand}

def lastCalls : Option (Predicate α × Connective) → List (Fn × List α)
  | none => []
  | some (last, _) => last.calls

/-- The meaning of a predicate after a pending operand. -/
def joined (v : Fn → List α → Bool) (last : Option (Predicate α × Connective))
    (parts : Bool × Bool) : Bool :=
  match last with
  | none => parts.1 || parts.2
  | some (last, .and) => (last.toSMT v && parts.1) || parts.2
  | some (last, .or) => last.toSMT v || (parts.1 || parts.2)

def Fits (last : Option (Predicate α × Connective)) (w : Written parseOperand) : Prop :=
  match last with
  | none => w.Parenthesised
  | some _ => w.Operands

theorem parsed_of_fits (w : Written parseOperand) :
    ∀ last : Option (Predicate α × Connective), Fits last w →
      ∃ q, w.parsed last = some (q, []) ∧ q.calls = lastCalls last ++ w.calls ∧
        ∀ v, q.toSMT v = joined v last (w.parts v) := by
  induction w with
  | call c =>
    rintro (_ | ⟨last, op⟩) fits
    · exact ⟨c.predicate, rfl, rfl, fun v => (Bool.or_false _).symm⟩
    · exact fits.elim
  | callThen c op rest _ =>
    rintro (_ | ⟨last, op⟩) fits
    · exact fits.elim
    · exact fits.elim
  | parens w ih =>
    intro last fits
    have inner : w.Parenthesised := by
      rcases last with _ | ⟨last, op⟩
      · exact fits
      · exact fits
    obtain ⟨q, result, calls, meaning⟩ := ih none inner
    have meaning : ∀ v, q.toSMT v = ((w.parts v).1 || (w.parts v).2) := meaning
    rw [Written.parsed, result]
    rcases last with _ | ⟨last, _ | _⟩
    · exact ⟨q, rfl, calls, fun v => by simp [joined, Written.parts, meaning]⟩
    · refine ⟨_, rfl, ?_, fun v => by simp [joined, Written.parts, Predicate.toSMT, meaning]⟩
      rw [Predicate.calls, calls]
      rfl
    · refine ⟨_, rfl, ?_, fun v => by simp [joined, Written.parts, Predicate.toSMT, meaning]⟩
      rw [Predicate.calls, calls]
      rfl
  | parensThen w op rest ih goesOn =>
    intro last fits
    have inner : w.Parenthesised ∧ rest.Operands := by
      rcases last with _ | ⟨last, op⟩
      · exact fits
      · exact fits
    obtain ⟨q, result, calls, meaning⟩ := ih none inner.1
    have calls : q.calls = w.calls := calls
    have meaning : ∀ v, q.toSMT v = ((w.parts v).1 || (w.parts v).2) := meaning
    rw [Written.parsed, result]
    rcases last with _ | ⟨last, _ | _⟩
    · obtain ⟨q', result', calls', meaning'⟩ := goesOn (some (q, op)) inner.2
      refine ⟨q', result', ?_, fun v => ?_⟩
      · change q'.calls = w.calls ++ rest.calls
        rw [calls', ← calls]
        rfl
      · rw [meaning' v]
        cases op <;> simp [joined, Written.parts, Written.before, meaning]
    · obtain ⟨q', result', calls', meaning'⟩ := goesOn (some (.bool last q .and, op)) inner.2
      refine ⟨q', result', ?_, fun v => ?_⟩
      · rw [calls', lastCalls, Predicate.calls, calls, List.append_assoc]
        rfl
      · rw [meaning' v]
        cases op <;>
          simp [joined, Written.parts, Written.before, Predicate.toSMT, meaning, Bool.and_assoc]
    · cases op with
      | and =>
        obtain ⟨q', result', calls', meaning'⟩ := goesOn (some (q, .and)) inner.2
        refine ⟨.bool last q' .or, ?_, ?_, fun v => ?_⟩
        · simp only [result']
          rfl
        · rw [Predicate.calls, calls', lastCalls, calls]
          rfl
        · rw [Predicate.toSMT, meaning' v]
          simp [joined, Written.parts, Written.before, meaning]
      | or =>
        obtain ⟨q', result', calls', meaning'⟩ := goesOn (some (.bool last q .or, .or)) inner.2
        refine ⟨q', result', ?_, fun v => ?_⟩
        · rw [calls', lastCalls, Predicate.calls, calls, List.append_assoc]
          rfl
        · rw [meaning' v]
          simp [joined, Written.parts, Written.before, Predicate.toSMT, meaning, Bool.or_assoc]

/-- A predicate that is read whole keeps all calls only where the operands are in
parentheses: a call drops the pending operand. -/
theorem fits_of_parsed (w : Written parseOperand) :
    ∀ (last : Option (Predicate α × Connective)) (q : Predicate α), w.parsed last = some (q, []) →
      q.calls.length ≤ (lastCalls last).length + w.calls.length ∧
        (q.calls.length = (lastCalls last).length + w.calls.length → Fits last w) := by
  induction w with
  | call c =>
    rintro (_ | ⟨last, op⟩) q result
    · cases result
      exact ⟨Nat.le_refl 1, fun _ => trivial⟩
    · cases result
      have some := last.calls_pos
      change 1 ≤ last.calls.length + 1 ∧ (1 = last.calls.length + 1 → False)
      omega
  | callThen c op rest _ =>
    intro last q result
    cases result
  | parens w ih =>
    intro last q result
    unfold Written.parsed at result
    split at result
    · next newpred inner =>
        have bound : newpred.calls.length ≤ 0 + w.calls.length ∧
            (newpred.calls.length = 0 + w.calls.length → w.Parenthesised) :=
          ih none newpred inner
        rcases last with _ | ⟨last, op⟩
        · cases result
          exact bound
        · cases result
          rw [Predicate.calls, List.length_append]
          change _ ≤ last.calls.length + w.calls.length ∧
            (_ = last.calls.length + w.calls.length → w.Parenthesised)
          exact ⟨by omega, fun equal => bound.2 (by omega)⟩
    · cases result
  | parensThen w op rest ih goesOn =>
    intro last q result
    unfold Written.parsed at result
    split at result
    · next newpred inner =>
        have bound : newpred.calls.length ≤ 0 + w.calls.length ∧
            (newpred.calls.length = 0 + w.calls.length → w.Parenthesised) :=
          ih none newpred inner
        have whole : (Written.parensThen w op rest).calls.length =
            w.calls.length + rest.calls.length := by rw [Written.calls, List.length_append]
        have fits : w.Parenthesised ∧ rest.Operands → Fits last (.parensThen w op rest) := by
          intro both
          rcases last with _ | ⟨last, op⟩
          · exact both
          · exact both
        rw [whole]
        split at result
        · have later : q.calls.length ≤ newpred.calls.length + rest.calls.length ∧
              (q.calls.length = newpred.calls.length + rest.calls.length → rest.Operands) :=
            goesOn _ q result
          rw [lastCalls, List.length_nil]
          exact ⟨by omega, fun equal => fits ⟨bound.2 (by omega), later.2 (by omega)⟩⟩
        · next last =>
            have later : q.calls.length ≤ (last.calls ++ newpred.calls).length + rest.calls.length ∧
                (q.calls.length = (last.calls ++ newpred.calls).length + rest.calls.length →
                  rest.Operands) := goesOn _ q result
            rw [List.length_append] at later
            rw [lastCalls]
            exact ⟨by omega, fun equal => fits ⟨bound.2 (by omega), later.2 (by omega)⟩⟩
        · next last =>
            obtain ⟨⟨q', left⟩, conjunction, same⟩ := Option.map_eq_some_iff.1 result
            cases same
            have later : q'.calls.length ≤ newpred.calls.length + rest.calls.length ∧
                (q'.calls.length = newpred.calls.length + rest.calls.length → rest.Operands) :=
              goesOn _ q' conjunction
            have size : ((last.bool q' .or).calls).length =
                last.calls.length + q'.calls.length := List.length_append
            rw [lastCalls, size]
            exact ⟨by omega, fun equal => fits ⟨bound.2 (by omega), later.2 (by omega)⟩⟩
        · next last =>
            have later : q.calls.length ≤ (last.calls ++ newpred.calls).length + rest.calls.length ∧
                (q.calls.length = (last.calls ++ newpred.calls).length + rest.calls.length →
                  rest.Operands) := goesOn _ q result
            rw [List.length_append] at later
            rw [lastCalls]
            exact ⟨by omega, fun equal => fits ⟨bound.2 (by omega), later.2 (by omega)⟩⟩
    · cases result

def ReadsRight (w : Written parseOperand) (rest : List Token)
    (outcome : Option (Predicate α × Tokenizer)) : Prop :=
  ∃ q s', outcome = some (q, s') ∧ s'.unread = rest ∧ q.calls = w.calls ∧
    ∀ v, q.toSMT v = w.meaning v

/-- A predicate is parsed right if and only if the operands of its connectives are in
parentheses. -/
theorem parsePre_right_iff
    {s : Tokenizer} {t : Token} {rest : List Token} (stream : s.unread = w.tokens ++ t :: rest)
    (notAnd : t ≠ .band) (notOr : t ≠ .bor) :
    ReadsRight w (t :: rest) (parsePre parseOperand s) ↔ w.Parenthesised := by
  have enough : w.tokens.length < s.unread.length + 1 := by
    rw [stream, List.length_append]
    omega
  have outcome := parsePredicate_written w none _ s t rest enough notAnd notOr stream
  change Yields (parsePre parseOperand s) (w.parsed none) (t :: rest) at outcome
  constructor
  · rintro ⟨q, s', result, unread, calls, -⟩
    cases expected : w.parsed none with
    | none =>
      rw [expected] at outcome
      rw [show parsePre parseOperand s = none from outcome] at result
      cases result
    | some pair =>
      obtain ⟨q', left⟩ := pair
      rw [expected] at outcome
      obtain ⟨s'', result', unread'⟩ := outcome
      rw [result'] at result
      cases result
      have empty : left = [] := by
        rw [unread] at unread'
        exact List.self_eq_append_left.1 unread'
      subst empty
      have bound : _ → w.Parenthesised := (fits_of_parsed w none q expected).2
      refine bound ?_
      rw [calls, lastCalls, List.length_nil, Nat.zero_add]
  · intro fits
    obtain ⟨q, result, calls, meaning⟩ := parsed_of_fits w none fits
    rw [result] at outcome
    obtain ⟨s', result, unread⟩ := outcome
    exact ⟨q, s', result, unread, calls, meaning⟩

end

/-! ### Two calls -/

def oneToken (s : Tokenizer) : Option (Nat × Tokenizer) :=
  match s.next with
  | (.other code, s) => some (code, s)
  | _ => none

def argument (code : Nat) : Argument oneToken where
  tokens := [.other code]
  value := code
  some_token := List.cons_ne_nil _ _
  reads s t rest _ stream := by
    obtain ⟨s', read, stream, -⟩ := Tokenizer.next_of_unread stream
    exact ⟨s', by rw [oneToken, read], stream⟩

theorem findFn_addNSW : findFn "WillNotOverflowSignedAdd" 2 = some .addNSW := by decide +kernel

def addNoOverflow (first second : Nat) : Call oneToken where
  name := "WillNotOverflowSignedAdd"
  first := argument first
  more := [argument second]
  fn := .addNSW
  known := findFn_addNSW

def grouped : Written oneToken :=
  .parensThen (.call (addNoOverflow 1 2)) .and (.parens (.call (addNoOverflow 3 4)))

def ungrouped : Written oneToken :=
  .parensThen (.call (addNoOverflow 1 2)) .and (.call (addNoOverflow 3 4))

def tokenizer (w : Written oneToken) : Tokenizer := ⟨.eof, false, w.tokens ++ [.eof]⟩

theorem parsePre_right_iff_grouped :
    ReadsRight grouped [.eof] (parsePre oneToken (tokenizer grouped)) ↔ grouped.Parenthesised :=
  parsePre_right_iff rfl (by decide) (by decide)

/-- The first call is lost. -/
theorem ungrouped_loses_a_call :
    (parsePre oneToken (tokenizer ungrouped)).map Prod.fst =
        some (addNoOverflow 3 4).predicate ∧
      ungrouped.calls ≠ (addNoOverflow 3 4).predicate.calls ∧
      (addNoOverflow 3 4).predicate.toSMT (fun _ args => args = [3, 4]) ≠
        ungrouped.meaning (fun _ args => args = [3, 4]) := by
  decide +kernel

/-! ## Printed predicates -/

/-- `fn_data[fn].first`. -/
def Fn.name (f : Fn) : String :=
  ((fnData.find? fun entry => entry.2.2 = f).map Prod.fst).getD ""

/-- `FnPred::print` and `BoolPred::print`, where `name` prints an argument. -/
def Predicate.print (name : α → List Token) : Predicate α → List Token
  | .fn f args =>
    .identifier f.name :: .lparen :: (((args.map name).intersperse [.comma]).flatten ++ [.rparen])
  | .bool lhs rhs pred =>
    .lparen :: (lhs.print name ++ .rparen :: pred.token :: .lparen :: (rhs.print name ++ [.rparen]))

/-- A printed predicate is one that is written with its operands in parentheses. -/
theorem print_written (render : α → Argument parseOperand) (values : ∀ a, (render a).value = a)
    (p : Predicate α) (sizes : ∀ call ∈ p.calls, call.2.length = 2) :
    ∃ w : Written parseOperand, w.tokens = p.print (fun a => (render a).tokens) ∧
      w.parsed none = some (p, []) := by
  induction p with
  | fn f args =>
    obtain ⟨a, b, rfl⟩ := List.length_eq_two.1 (sizes (f, args) (List.mem_singleton_self _))
    have known : findFn f.name 2 = some f := by cases f <;> decide +kernel
    refine ⟨.call ⟨f.name, render a, [render b], f, known⟩, ?_, ?_⟩
    · simp [Written.tokens, Call.tokens, argTokens, Predicate.print]
    · simp [Written.parsed, Call.predicate, Call.args, values]
  | bool lhs rhs pred left right =>
    rw [Predicate.calls, List.forall_mem_append] at sizes
    obtain ⟨w, tokens, result⟩ := left sizes.1
    obtain ⟨w', tokens', result'⟩ := right sizes.2
    refine ⟨.parensThen w pred (.parens w'), ?_, ?_⟩
    · rw [Written.tokens, Written.tokens, tokens, tokens', Predicate.print]
    · cases pred <;> simp [Written.parsed, result, result']

/-- A predicate that is printed is parsed again. -/
theorem parsePre_print (render : α → Argument parseOperand) (values : ∀ a, (render a).value = a)
    {p : Predicate α} (sizes : ∀ call ∈ p.calls, call.2.length = 2) {s : Tokenizer} {t : Token}
    {rest : List Token} (stream : s.unread = p.print (fun a => (render a).tokens) ++ t :: rest)
    (notAnd : t ≠ .band) (notOr : t ≠ .bor) :
    ∃ s', parsePre parseOperand s = some (p, s') ∧ s'.unread = t :: rest := by
  obtain ⟨w, tokens, result⟩ := print_written render values p sizes
  rw [← tokens] at stream
  have enough : w.tokens.length < s.unread.length + 1 := by
    rw [stream, List.length_append]
    omega
  have outcome := parsePredicate_written w none _ s t rest enough notAnd notOr stream
  rw [result] at outcome
  exact outcome

def either : Predicate Nat := .bool (.fn .addNSW [1, 2]) (.fn .mulNUW [3, 4]) .or

theorem parsePre_print_either : ∃ s', parsePre oneToken
      ⟨.eof, false, either.print (fun a => (argument a).tokens) ++ [.eof]⟩ = some (either, s') ∧
        s'.unread = [.eof] :=
  parsePre_print argument (fun _ => rfl) (p := either) (by decide) rfl (by decide) (by decide)

end AliveNext.Tools.ParsePredicate
