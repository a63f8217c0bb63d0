import AliveNext.Lib.Grouping
import AliveNext.TvNext.Diff

/-!
# Diff regions of any two functions

`computeDiffRegions` reads an instruction only through its printed line, its
opcode, its name and its operands, so the loops are stated here for handles
of any instructions.  The regions and the identical pairs cut both functions
into pieces, in order and without gaps, and the regions are as long as they
can be.
-/

namespace AliveNext.TvNext.AnyInst

open AliveNext.Lib
open AliveNext.LLVM

universe u v w

/-- What the comparison reads of an instruction. -/
structure Line (κ : Type v) where
  printed : Text
  opcode : κ
  name : Name
  operandKeys : List Text
  isTerminator : Bool

section

variable {α : Type u} {κ : Type v}

def instAsText (line : Line κ) : Text :=
  lineAsText line.printed

def hasName (line : Line κ) : Bool :=
  !line.name.isEmpty

def isLikelyCommutativity [BEq κ] (src tgt : Line κ) : Bool :=
  src.opcode == tgt.opcode && src.operandKeys.length == 2 && tgt.operandKeys.length == 2 &&
    src.name == tgt.name &&
    src.operandKeys.isPerm tgt.operandKeys

def sharesName (src tgt : Line κ) : Bool :=
  hasName src && hasName tgt && src.name == tgt.name

structure DiffPosition (α : Type u) where
  instIdx : Nat
  srcInst : α
  tgtInst : α

structure DiffRegion (α : Type u) where
  positions : List (DiffPosition α) := []
  isAsymmetric : Bool := false
  srcRegion : List α := []
  tgtRegion : List α := []
  srcStartIdx : Nat := 0
  tgtStartIdx : Nat := 0

structure DiffResult (α : Type u) where
  regions : List (DiffRegion α)
  identicalCount : Nat

/-- The variables of the pairing loops. -/
structure DiffState (α : Type u) where
  regions : List (DiffRegion α)
  current : List (DiffPosition α)
  identicalCount : Nat

namespace DiffState

def initial : DiffState α :=
  ⟨[], [], 0⟩

/-- `flush_group`, `flush_paired`. -/
def flush (state : DiffState α) : DiffState α :=
  if state.current.isEmpty then state
  else
    { state with
      regions := state.regions ++ [{ positions := state.current }]
      current := [] }

def identical (state : DiffState α) : DiffState α :=
  { state with identicalCount := state.identicalCount + 1 }.flush

def push (state : DiffState α) (position : DiffPosition α) : DiffState α :=
  { state with current := state.current ++ [position] }

end DiffState

structure Function (α : Type u) where
  name : Name
  blocks : List (List α)

def nonTerminators (line : α → Line κ) (block : List α) : List α :=
  block.filter fun inst => !(line inst).isTerminator

/-- `BasicBlock::getTerminator`: the last instruction, if it is one. -/
def getTerminator (line : α → Line κ) (block : List α) : Option α :=
  block.getLast?.filter fun inst => (line inst).isTerminator

variable (srcLine tgtLine : α → Line κ)

def terminatorsDiffer (srcBB tgtBB : List α) : Bool :=
  match getTerminator srcLine srcBB, getTerminator tgtLine tgtBB with
  | some s, some t => instAsText (srcLine s) != instAsText (tgtLine t)
  | _, _ => false

variable [BEq κ]

def differing (state : DiffState α) (position : DiffPosition α) : DiffState α :=
  if isLikelyCommutativity (srcLine position.srcInst) (tgtLine position.tgtInst) then
    (state.flush.push position).flush
  else
    state.push position

/-- The loop for equal instruction counts. -/
def pairPositions : Nat → List α → List α → DiffState α → DiffState α
  | i, s :: ss, t :: ts, state =>
    if instAsText (srcLine s) = instAsText (tgtLine t) then
      pairPositions (i + 1) ss ts state.identical
    else
      pairPositions (i + 1) ss ts (differing srcLine tgtLine state ⟨i, s, t⟩)
  | _, _, _, state => state.flush

/-- The loop for different instruction counts; it also returns the position
where it stopped and what is left on each side. -/
def pairAligned : Nat → List α → List α → DiffState α → DiffState α × Nat × List α × List α
  | i, s :: ss, t :: ts, state =>
    if instAsText (srcLine s) = instAsText (tgtLine t) then
      pairAligned (i + 1) ss ts state.identical
    else if sharesName (srcLine s) (tgtLine t) then
      pairAligned (i + 1) ss ts (differing srcLine tgtLine state ⟨i, s, t⟩)
    else
      (state.flush, i, s :: ss, t :: ts)
  | i, ss, ts, state => (state.flush, i, ss, ts)

/-- The region that holds everything after the aligned part. -/
def asymmetricRegion (start : Nat) (ss ts : List α) : DiffRegion α where
  isAsymmetric := true
  srcRegion := ss
  tgtRegion := ts
  srcStartIdx := start
  tgtStartIdx := start

def diffInsts (src tgt : List α) : DiffResult α :=
  if src.length = tgt.length then
    let state := pairPositions srcLine tgtLine 0 src tgt .initial
    ⟨state.regions, state.identicalCount⟩
  else
    let (state, start, ss, ts) := pairAligned srcLine tgtLine 0 src tgt .initial
    if ss.isEmpty && ts.isEmpty then ⟨state.regions, state.identicalCount⟩
    else
      ⟨state.regions ++ [asymmetricRegion start ss ts], state.identicalCount⟩

/-- `computeDiffRegions`; `none` stands for a diagnostic. -/
def computeDiffRegions (src tgt : Function α) : Option (DiffResult α) :=
  match src.blocks, tgt.blocks with
  | [srcBB], [tgtBB] =>
    let result := diffInsts srcLine tgtLine (nonTerminators srcLine srcBB)
      (nonTerminators tgtLine tgtBB)
    if terminatorsDiffer srcLine tgtLine srcBB tgtBB then none
    else some result
  | _, _ => none

end

/-! ## Pieces of two functions -/

inductive Piece (α : Type u) where
  | identical (position : DiffPosition α)
  | region (r : DiffRegion α)

namespace Piece

variable {α : Type u}

def region? : Piece α → Option (DiffRegion α)
  | .identical _ => none
  | .region r => some r

def isIdentical : Piece α → Bool
  | .identical _ => true
  | .region _ => false

def srcPositions : Piece α → List Nat
  | .identical position => [position.instIdx]
  | .region r =>
    if r.isAsymmetric then List.range' r.srcStartIdx r.srcRegion.length
    else r.positions.map DiffPosition.instIdx

def tgtPositions : Piece α → List Nat
  | .identical position => [position.instIdx]
  | .region r =>
    if r.isAsymmetric then List.range' r.tgtStartIdx r.tgtRegion.length
    else r.positions.map DiffPosition.instIdx

def srcInsts : Piece α → List α
  | .identical position => [position.srcInst]
  | .region r =>
    if r.isAsymmetric then r.srcRegion
    else r.positions.map DiffPosition.srcInst

def tgtInsts : Piece α → List α
  | .identical position => [position.tgtInst]
  | .region r =>
    if r.isAsymmetric then r.tgtRegion
    else r.positions.map DiffPosition.tgtInst

end Piece

section

variable {α : Type u} {κ : Type v} (srcLine tgtLine : α → Line κ)

def Same (position : DiffPosition α) : Prop :=
  instAsText (srcLine position.srcInst) = instAsText (tgtLine position.tgtInst)

def SharesName (position : DiffPosition α) : Prop :=
  sharesName (srcLine position.srcInst) (tgtLine position.tgtInst) = true

variable [BEq κ]

def Commutes (position : DiffPosition α) : Prop :=
  isLikelyCommutativity (srcLine position.srcInst) (tgtLine position.tgtInst) = true

def IsRun : Piece α → Prop
  | .identical _ => False
  | .region r => r.isAsymmetric = false ∧
      ∀ position ∈ r.positions, ¬Commutes srcLine tgtLine position

/-- The identical pairs and the regions cut both functions into pieces. -/
structure Partition (src tgt : List α) (result : DiffResult α)
    (pieces : List (Piece α)) : Prop where
  src_positions : pieces.flatMap Piece.srcPositions = List.range src.length
  tgt_positions : pieces.flatMap Piece.tgtPositions = List.range tgt.length
  src_insts : pieces.flatMap Piece.srcInsts = src
  tgt_insts : pieces.flatMap Piece.tgtInsts = tgt
  regions : pieces.filterMap Piece.region? = result.regions
  identicalCount : pieces.countP Piece.isIdentical = result.identicalCount
  identical : ∀ position, .identical position ∈ pieces → Same srcLine tgtLine position
  differing : ∀ r ∈ result.regions, ∀ position ∈ r.positions, ¬Same srcLine tgtLine position
  symmetric : ∀ r ∈ result.regions, r.isAsymmetric = false →
    r.positions ≠ [] ∧ r.srcRegion = [] ∧ r.tgtRegion = []
  alone : ∀ r ∈ result.regions, ∀ position ∈ r.positions,
    Commutes srcLine tgtLine position → r.positions = [position]
  maximal : pieces.IsChain fun first second =>
    ¬(IsRun srcLine tgtLine first ∧ IsRun srcLine tgtLine second)
  named : src.length ≠ tgt.length → ∀ r ∈ result.regions,
    ∀ position ∈ r.positions, SharesName srcLine tgtLine position
  asymmetric : ∀ r ∈ result.regions, r.isAsymmetric = true → src.length ≠ tgt.length ∧
      (∃ before, pieces = before ++ [.region r] ∧
        ∀ other, .region other ∈ before → other.isAsymmetric = false) ∧
      r.positions = [] ∧ r.srcStartIdx = r.tgtStartIdx ∧
      r.srcRegion = src.drop r.srcStartIdx ∧
      r.tgtRegion = tgt.drop r.tgtStartIdx ∧
      ∀ s t, r.srcRegion.head? = some s → r.tgtRegion.head? = some t →
        ¬Same srcLine tgtLine ⟨r.srcStartIdx, s, t⟩ ∧
          ¬SharesName srcLine tgtLine ⟨r.srcStartIdx, s, t⟩

end

section

variable {α : Type u}

/-- The pairs from position `i` on. -/
def paired : Nat → List α → List α → List (DiffPosition α)
  | i, s :: ss, t :: ts => ⟨i, s, t⟩ :: paired (i + 1) ss ts
  | _, _, _ => []

theorem length_paired (i : Nat) (ss ts : List α) :
    (paired i ss ts).length = min ss.length ts.length := by
  induction ss generalizing i ts with
  | nil => simp [paired]
  | cons s ss ih =>
    cases ts with
    | nil => simp [paired]
    | cons t ts =>
      simp only [paired, List.length_cons, ih]
      omega

theorem take_paired (count i : Nat) (ss ts : List α)
    (src : count ≤ ss.length) (tgt : count ≤ ts.length) :
    ((paired i ss ts).take count).map DiffPosition.instIdx = List.range' i count ∧
      ((paired i ss ts).take count).map DiffPosition.srcInst = ss.take count ∧
      ((paired i ss ts).take count).map DiffPosition.tgtInst = ts.take count := by
  induction count generalizing i ss ts with
  | zero => exact ⟨rfl, rfl, rfl⟩
  | succ count ih =>
    cases ss with
    | nil => simp at src
    | cons s ss =>
      cases ts with
      | nil => simp at tgt
      | cons t ts =>
        rw [List.length_cons] at src tgt
        obtain ⟨positions, srcs, tgts⟩ := ih (i + 1) ss ts (by omega) (by omega)
        rw [paired, List.take_succ_cons, List.map_cons, List.map_cons, List.map_cons,
          positions, srcs, tgts, List.range'_succ]
        exact ⟨rfl, rfl, rfl⟩

end

section

variable {α : Type u} {κ : Type v} (srcLine tgtLine : α → Line κ)

def aligned (position : DiffPosition α) : Bool :=
  decide (instAsText (srcLine position.srcInst) = instAsText (tgtLine position.tgtInst)) ||
    sharesName (srcLine position.srcInst) (tgtLine position.tgtInst)

def alignedCount (i : Nat) (ss ts : List α) : Nat :=
  ((paired i ss ts).takeWhile (aligned srcLine tgtLine)).length

theorem aligned_iff {position : DiffPosition α} : aligned srcLine tgtLine position = true ↔
      Same srcLine tgtLine position ∨ SharesName srcLine tgtLine position := by
  simp [aligned, Same, SharesName]

variable {i : Nat} {s t : α}

theorem takeWhile_paired_cons (ss ts : List α) (goesOn : aligned srcLine tgtLine ⟨i, s, t⟩ = true) :
    (paired i (s :: ss) (t :: ts)).takeWhile (aligned srcLine tgtLine) = ⟨i, s, t⟩ ::
        (paired (i + 1) ss ts).takeWhile (aligned srcLine tgtLine) := by
  rw [paired, List.takeWhile_cons_of_pos goesOn]

theorem takeWhile_paired_stop (ss ts : List α) (stops : ¬aligned srcLine tgtLine ⟨i, s, t⟩ = true) :
    (paired i (s :: ss) (t :: ts)).takeWhile (aligned srcLine tgtLine) = [] := by
  rw [paired, List.takeWhile_cons_of_neg stops]

theorem alignedCount_cons (ss ts : List α) (goesOn : aligned srcLine tgtLine ⟨i, s, t⟩ = true) :
    alignedCount srcLine tgtLine i (s :: ss) (t :: ts) =
      alignedCount srcLine tgtLine (i + 1) ss ts + 1 := by
  rw [alignedCount, takeWhile_paired_cons srcLine tgtLine ss ts goesOn]
  rfl

theorem alignedCount_stop (ss ts : List α) (stops : ¬aligned srcLine tgtLine ⟨i, s, t⟩ = true) :
    alignedCount srcLine tgtLine i (s :: ss) (t :: ts) = 0 := by
  rw [alignedCount, takeWhile_paired_stop srcLine tgtLine ss ts stops]
  rfl

theorem takeWhile_eq_take (i : Nat) (ss ts : List α) :
    (paired i ss ts).takeWhile (aligned srcLine tgtLine) =
      (paired i ss ts).take (alignedCount srcLine tgtLine i ss ts) :=
  List.prefix_iff_eq_take.mp (List.takeWhile_prefix _)

theorem alignedCount_le (i : Nat) (ss ts : List α) :
    alignedCount srcLine tgtLine i ss ts ≤ ss.length ∧
      alignedCount srcLine tgtLine i ss ts ≤ ts.length := by
  have fits := (List.takeWhile_prefix (l := paired i ss ts) (aligned srcLine tgtLine)).length_le
  rw [length_paired] at fits
  exact Nat.le_min.mp fits

theorem aligned_stops (i : Nat) (ss ts : List α) (s t : α)
    (first : (ss.drop (alignedCount srcLine tgtLine i ss ts)).head? = some s)
    (first' : (ts.drop (alignedCount srcLine tgtLine i ss ts)).head? = some t) :
    ¬aligned srcLine tgtLine ⟨i + alignedCount srcLine tgtLine i ss ts, s, t⟩ = true := by
  induction ss generalizing i ts with
  | nil => simp at first
  | cons head ss ih =>
    cases ts with
    | nil => simp at first'
    | cons head' ts =>
      by_cases goesOn : aligned srcLine tgtLine ⟨i, head, head'⟩ = true
      · rw [alignedCount_cons srcLine tgtLine ss ts goesOn, List.drop_succ_cons] at first first'
        rw [alignedCount_cons srcLine tgtLine ss ts goesOn, ← Nat.add_assoc, Nat.add_right_comm]
        exact ih (i + 1) ts first first'
      · rw [alignedCount_stop srcLine tgtLine ss ts goesOn] at first first' ⊢
        obtain rfl := Option.some.inj first
        obtain rfl := Option.some.inj first'
        exact goesOn

end

section

variable {α : Type u} {κ : Type v} [BEq κ] (srcLine tgtLine : α → Line κ)

def role (position : DiffPosition α) : Grouping.Role :=
  if instAsText (srcLine position.srcInst) = instAsText (tgtLine position.tgtInst) then .separator
  else if isLikelyCommutativity (srcLine position.srcInst) (tgtLine position.tgtInst) then .single
  else .joined

def symmetricRegion (positions : List (DiffPosition α)) : DiffRegion α :=
  { positions := positions }

def stateOf (pass : Grouping.Grouper (DiffPosition α)) : DiffState α where
  regions := pass.closed.map symmetricRegion
  current := pass.current
  identicalCount := pass.separators

variable (pass : Grouping.Grouper (DiffPosition α))

theorem stateOf_flush : (stateOf pass).flush = stateOf pass.flush := by
  unfold DiffState.flush Grouping.Grouper.flush
  by_cases empty : pass.current.isEmpty = true
  · rw [if_pos empty, if_pos (show (stateOf pass).current.isEmpty = true from empty)]
  · rw [if_neg empty, if_neg (show ¬(stateOf pass).current.isEmpty = true from empty)]
    simp [stateOf, symmetricRegion]

variable {srcLine tgtLine} in
theorem role_same {position : DiffPosition α} (same : Same srcLine tgtLine position) :
    role srcLine tgtLine position = .separator :=
  if_pos same

variable {srcLine tgtLine} in
theorem role_commutes {position : DiffPosition α} (different : ¬Same srcLine tgtLine position)
    (commutes : Commutes srcLine tgtLine position) : role srcLine tgtLine position = .single :=
  (if_neg different).trans (if_pos commutes)

variable {srcLine tgtLine} in
theorem role_plain {position : DiffPosition α} (different : ¬Same srcLine tgtLine position)
    (plain : ¬Commutes srcLine tgtLine position) : role srcLine tgtLine position = .joined :=
  (if_neg different).trans (if_neg plain)

theorem stateOf_identical {position : DiffPosition α} (same : Same srcLine tgtLine position) :
    (stateOf pass).identical = stateOf (pass.step (role srcLine tgtLine) position) := by
  rw [Grouping.Grouper.step, role_same same]
  obtain ⟨closed, current, separators⟩ := pass
  cases current with
  | nil => rfl
  | cons head rest =>
    simp [DiffState.identical, DiffState.flush, Grouping.Grouper.flush, stateOf, symmetricRegion]

theorem stateOf_differing {position : DiffPosition α} (different : ¬Same srcLine tgtLine position) :
    differing srcLine tgtLine (stateOf pass) position =
      stateOf (pass.step (role srcLine tgtLine) position) := by
  unfold differing
  by_cases commutes : Commutes srcLine tgtLine position
  · rw [Grouping.Grouper.step, role_commutes different commutes]
    refine (if_pos commutes).trans ?_
    rw [stateOf_flush]
    exact stateOf_flush (pass.flush.push position)
  · rw [Grouping.Grouper.step, role_plain different commutes]
    exact if_neg commutes

theorem pairPositions_eq (i : Nat) (ss ts : List α) :
    pairPositions srcLine tgtLine i ss ts (stateOf pass) =
      stateOf ((paired i ss ts).foldl
        (Grouping.Grouper.step (role srcLine tgtLine)) pass).flush := by
  induction ss generalizing i ts pass with
  | nil => simp [pairPositions, paired, stateOf_flush]
  | cons s ss ih =>
    cases ts with
    | nil => simp [pairPositions, paired, stateOf_flush]
    | cons t ts =>
      rw [pairPositions, paired, List.foldl_cons, ← ih]
      by_cases same : Same srcLine tgtLine ⟨i, s, t⟩
      · rw [← stateOf_identical srcLine tgtLine pass same]
        exact if_pos same
      · rw [← stateOf_differing srcLine tgtLine pass same]
        exact if_neg same

theorem pairAligned_eq (i : Nat) (ss ts : List α) :
    pairAligned srcLine tgtLine i ss ts (stateOf pass) =
      (stateOf (((paired i ss ts).takeWhile (aligned srcLine tgtLine)).foldl
        (Grouping.Grouper.step (role srcLine tgtLine)) pass).flush,
        i + alignedCount srcLine tgtLine i ss ts,
        ss.drop (alignedCount srcLine tgtLine i ss ts),
        ts.drop (alignedCount srcLine tgtLine i ss ts)) := by
  induction ss generalizing i ts pass with
  | nil => simp [pairAligned, alignedCount, paired, stateOf_flush]
  | cons s ss ih =>
    cases ts with
    | nil => simp [pairAligned, alignedCount, paired, stateOf_flush]
    | cons t ts =>
      by_cases goesOn : aligned srcLine tgtLine ⟨i, s, t⟩ = true
      · rw [takeWhile_paired_cons srcLine tgtLine ss ts goesOn,
          alignedCount_cons srcLine tgtLine ss ts goesOn, List.foldl_cons,
          List.drop_succ_cons, List.drop_succ_cons, ← Nat.add_assoc,
          Nat.add_right_comm, ← ih, pairAligned]
        by_cases same : Same srcLine tgtLine ⟨i, s, t⟩
        · rw [← stateOf_identical srcLine tgtLine pass same]
          exact if_pos same
        · have named : SharesName srcLine tgtLine ⟨i, s, t⟩ :=
            ((aligned_iff srcLine tgtLine).mp goesOn).resolve_left same
          rw [← stateOf_differing srcLine tgtLine pass same]
          exact (if_neg same).trans (if_pos named)
      · rw [takeWhile_paired_stop srcLine tgtLine ss ts goesOn,
          alignedCount_stop srcLine tgtLine ss ts goesOn, pairAligned,
          List.foldl_nil, ← stateOf_flush]
        rw [aligned_iff] at goesOn
        push Not at goesOn
        exact (if_neg goesOn.1).trans (if_neg goesOn.2)

end

section

variable {α : Type u} {κ : Type v} [BEq κ] {srcLine tgtLine : α → Line κ}

def pieceOf : Grouping.Piece (DiffPosition α) → Piece α
  | .separator position => .identical position
  | .group positions => .region (symmetricRegion positions)

theorem flatMap_pieceOf {γ : Type w} {covered : Piece α → List γ}
    {field : DiffPosition α → γ} (agree : ∀ piece, covered (pieceOf piece) = piece.items.map field)
    (pieces : List (Grouping.Piece (DiffPosition α))) :
    (pieces.map pieceOf).flatMap covered = (pieces.flatMap Grouping.Piece.items).map field := by
  rw [List.flatMap_map, List.map_flatMap]
  exact congrArg (pieces.flatMap ·) (funext agree)

theorem pieceOf_covers (piece : Grouping.Piece (DiffPosition α)) :
    (pieceOf piece).srcPositions = piece.items.map DiffPosition.instIdx ∧
      (pieceOf piece).tgtPositions = piece.items.map DiffPosition.instIdx ∧
      (pieceOf piece).srcInsts = piece.items.map DiffPosition.srcInst ∧
      (pieceOf piece).tgtInsts = piece.items.map DiffPosition.tgtInst := by
  cases piece with
  | separator position => exact ⟨rfl, rfl, rfl, rfl⟩
  | group positions => exact ⟨rfl, rfl, rfl, rfl⟩

theorem filterMap_pieceOf (pieces : List (Grouping.Piece (DiffPosition α))) :
    (pieces.map pieceOf).filterMap Piece.region? =
      (pieces.filterMap Grouping.Piece.group?).map symmetricRegion := by
  induction pieces with
  | nil => rfl
  | cons piece pieces ih =>
    cases piece with
    | separator position => exact ih
    | group positions => exact congrArg (symmetricRegion positions :: ·) ih

theorem countP_pieceOf (pieces : List (Grouping.Piece (DiffPosition α))) :
    (pieces.map pieceOf).countP Piece.isIdentical = pieces.countP Grouping.Piece.isSeparator := by
  rw [List.countP_map]
  refine List.countP_congr fun piece _ => ?_
  cases piece with
  | separator position => exact Iff.rfl
  | group positions => exact Iff.rfl

theorem same_of_role {position : DiffPosition α}
    (separates : role srcLine tgtLine position = .separator) : Same srcLine tgtLine position := by
  by_contra different
  by_cases commutes : Commutes srcLine tgtLine position
  · rw [role_commutes different commutes] at separates
    cases separates
  · rw [role_plain different commutes] at separates
    cases separates

theorem commutes_of_role {position : DiffPosition α}
    (alone : role srcLine tgtLine position = .single) :
    ¬Same srcLine tgtLine position ∧ Commutes srcLine tgtLine position := by
  by_cases same : Same srcLine tgtLine position
  · rw [role_same same] at alone
    cases alone
  · refine ⟨same, ?_⟩
    by_contra plain
    rw [role_plain same plain] at alone
    cases alone

theorem plain_of_role {position : DiffPosition α}
    (joins : role srcLine tgtLine position = .joined) :
    ¬Same srcLine tgtLine position ∧ ¬Commutes srcLine tgtLine position := by
  by_cases same : Same srcLine tgtLine position
  · rw [role_same same] at joins
    cases joins
  · refine ⟨same, fun commutes => ?_⟩
    rw [role_commutes same commutes] at joins
    cases joins

section

variable {src tgt : List α} {count separators : Nat} {groups : List (List (DiffPosition α))}
  {pieces : List (Grouping.Piece (DiffPosition α))}

variable {group : List (DiffPosition α)}

theorem group_cases (fits : (Grouping.Piece.group group).Fits (role srcLine tgtLine)) :
    group ≠ [] ∧ (∀ position ∈ group, ¬Same srcLine tgtLine position) ∧
      ∀ position ∈ group, Commutes srcLine tgtLine position → group = [position] := by
  obtain ⟨nonempty, ⟨item, rfl, alone⟩ | joined⟩ := fits
  · refine ⟨nonempty, ?_, ?_⟩
    · intro position member
      rw [List.mem_singleton.mp member]
      exact (commutes_of_role alone).1
    · intro position member _
      rw [List.mem_singleton.mp member]
  · refine ⟨nonempty, ?_, ?_⟩
    · intro position member
      exact (plain_of_role (joined position member)).1
    · intro position member commutes
      exact absurd commutes (plain_of_role (joined position member)).2

theorem joined_of_isRun {piece : Grouping.Piece (DiffPosition α)}
    (fits : piece.Fits (role srcLine tgtLine)) (isRun : IsRun srcLine tgtLine (pieceOf piece)) :
    piece.Joined (role srcLine tgtLine) := by
  cases piece with
  | separator position => exact isRun
  | group group =>
    obtain ⟨-, ⟨item, rfl, alone⟩ | joined⟩ := fits
    · exact absurd (commutes_of_role alone).2 (isRun.2 item (List.mem_singleton_self item))
    · exact joined

section

variable (cut : Grouping.Cut (role srcLine tgtLine) ((paired 0 src tgt).take count) groups
  separators pieces)

include cut

theorem mem_groups (member : group ∈ groups) :
    (Grouping.Piece.group group).Fits (role srcLine tgtLine) := by
  rw [← cut.groups_eq, List.mem_filterMap] at member
  obtain ⟨piece, inside, found⟩ := member
  cases piece with
  | separator position => cases found
  | group other =>
    obtain rfl : other = group := Option.some.inj found
    exact cut.grouped.fits _ inside

theorem maximal_of_cut : (pieces.map pieceOf).IsChain fun first second =>
      ¬(IsRun srcLine tgtLine first ∧ IsRun srcLine tgtLine second) := by
  rw [List.isChain_map]
  refine cut.grouped.maximal.imp_of_mem_imp ?_
  intro first second before after apart
  rintro ⟨run, run'⟩
  exact apart ⟨joined_of_isRun (cut.grouped.fits first before) run,
    joined_of_isRun (cut.grouped.fits second after) run'⟩

theorem identical_of_cut {position : DiffPosition α}
    (member : .identical position ∈ pieces.map pieceOf) : Same srcLine tgtLine position := by
  obtain ⟨piece, inside, same⟩ := List.mem_map.mp member
  cases piece with
  | separator other =>
    obtain rfl : other = position := Piece.identical.inj same
    exact same_of_role (cut.grouped.fits _ inside)
  | group group => cases same

theorem mem_paired (member : group ∈ groups) {position : DiffPosition α}
    (inside : position ∈ group) : position ∈ (paired 0 src tgt).take count := by
  rw [← cut.groups_eq, List.mem_filterMap] at member
  obtain ⟨piece, found, shown⟩ := member
  rw [← cut.grouped.covers, List.mem_flatMap]
  refine ⟨piece, found, ?_⟩
  cases piece with
  | separator other => cases shown
  | group other =>
    obtain rfl : other = group := Option.some.inj shown
    exact inside

theorem positions_of_cut (srcFits : count ≤ src.length) (tgtFits : count ≤ tgt.length) :
    (pieces.map pieceOf).flatMap Piece.srcPositions = List.range count ∧
      (pieces.map pieceOf).flatMap Piece.tgtPositions = List.range count ∧
      (pieces.map pieceOf).flatMap Piece.srcInsts = src.take count ∧
      (pieces.map pieceOf).flatMap Piece.tgtInsts = tgt.take count := by
  obtain ⟨positions, srcs, tgts⟩ := take_paired count 0 src tgt srcFits tgtFits
  rw [List.range_eq_range']
  refine ⟨?_, ?_, ?_, ?_⟩
  · rw [flatMap_pieceOf fun piece => (pieceOf_covers piece).1, cut.grouped.covers, positions]
  · rw [flatMap_pieceOf fun piece => (pieceOf_covers piece).2.1, cut.grouped.covers, positions]
  · rw [flatMap_pieceOf fun piece => (pieceOf_covers piece).2.2.1, cut.grouped.covers, srcs]
  · rw [flatMap_pieceOf fun piece => (pieceOf_covers piece).2.2.2, cut.grouped.covers, tgts]

end

theorem range_append_drop {insts : List α} (fits : count ≤ insts.length) :
    List.range count ++ List.range' count (insts.drop count).length = List.range insts.length := by
  rw [List.range_eq_range', List.range_eq_range', List.length_drop]
  have joined : List.range' 0 count ++ List.range' (0 + count) (insts.length - count) =
        List.range' 0 (count + (insts.length - count)) := List.range'_append_1
  rw [Nat.zero_add, Nat.add_sub_cancel' fits] at joined
  exact joined

variable (cut : Grouping.Cut (role srcLine tgtLine) ((paired 0 src tgt).take count) groups
  separators pieces)

include cut

theorem partition_of_pairs (srcAll : count = src.length) (tgtAll : count = tgt.length) :
    Partition srcLine tgtLine src tgt
      ⟨groups.map symmetricRegion, separators⟩ (pieces.map pieceOf) := by
  obtain ⟨srcPositions, tgtPositions, srcInsts, tgtInsts⟩ :=
    positions_of_cut cut srcAll.le tgtAll.le
  constructor
  case src_positions => rw [srcPositions, srcAll]
  case tgt_positions => rw [tgtPositions, tgtAll]
  case src_insts => rw [srcInsts, srcAll, List.take_length]
  case tgt_insts => rw [tgtInsts, tgtAll, List.take_length]
  case regions => rw [filterMap_pieceOf, cut.groups_eq]
  case identicalCount => rw [countP_pieceOf, cut.counted]
  case identical => exact fun position member => identical_of_cut cut member
  case maximal => exact maximal_of_cut cut
  case differing =>
    intro r member position inside
    obtain ⟨group, found, rfl⟩ := List.mem_map.mp member
    exact (group_cases (mem_groups cut found)).2.1 position inside
  case symmetric =>
    intro r member _
    obtain ⟨group, found, rfl⟩ := List.mem_map.mp member
    exact ⟨(group_cases (mem_groups cut found)).1, rfl, rfl⟩
  case alone =>
    intro r member position inside commutes
    obtain ⟨group, found, rfl⟩ := List.mem_map.mp member
    exact (group_cases (mem_groups cut found)).2.2 position inside commutes
  case named => exact fun different => absurd (srcAll.symm.trans tgtAll) different
  case asymmetric =>
    intro r member isAsymmetric
    obtain ⟨group, -, rfl⟩ := List.mem_map.mp member
    cases isAsymmetric

theorem partition_of_aligned (srcFits : count ≤ src.length) (tgtFits : count ≤ tgt.length)
    (different : src.length ≠ tgt.length) (goesOn : ∀ position ∈ (paired 0 src tgt).take count,
      aligned srcLine tgtLine position = true)
    (stops : ∀ s t, (src.drop count).head? = some s → (tgt.drop count).head? = some t →
        ¬aligned srcLine tgtLine ⟨count, s, t⟩ = true) :
    Partition srcLine tgtLine src tgt
      ⟨groups.map symmetricRegion ++
        [asymmetricRegion count (src.drop count) (tgt.drop count)], separators⟩
      (pieces.map pieceOf ++
        [.region (asymmetricRegion count (src.drop count) (tgt.drop count))]) := by
  obtain ⟨srcPositions, tgtPositions, srcInsts, tgtInsts⟩ :=
    positions_of_cut cut srcFits tgtFits
  have cases_ : ∀ r ∈ groups.map symmetricRegion ++
      [asymmetricRegion count (src.drop count) (tgt.drop count)],
      (∃ group ∈ groups, r = symmetricRegion group) ∨
        r = asymmetricRegion count (src.drop count) (tgt.drop count) := by
    intro r member
    rcases List.mem_append.mp member with early | late
    · obtain ⟨group, found, rfl⟩ := List.mem_map.mp early
      exact .inl ⟨group, found, rfl⟩
    · exact .inr (List.mem_singleton.mp late)
  constructor
  case src_positions =>
    rw [List.flatMap_append, srcPositions, List.flatMap_singleton]
    exact range_append_drop srcFits
  case tgt_positions =>
    rw [List.flatMap_append, tgtPositions, List.flatMap_singleton]
    exact range_append_drop tgtFits
  case src_insts =>
    rw [List.flatMap_append, srcInsts, List.flatMap_singleton]
    exact List.take_append_drop count src
  case tgt_insts =>
    rw [List.flatMap_append, tgtInsts, List.flatMap_singleton]
    exact List.take_append_drop count tgt
  case regions =>
    rw [List.filterMap_append, filterMap_pieceOf, cut.groups_eq]
    rfl
  case identicalCount =>
    rw [List.countP_append, countP_pieceOf, cut.counted]
    rfl
  case identical =>
    intro position member
    rcases List.mem_append.mp member with early | late
    · exact identical_of_cut cut early
    · cases List.mem_singleton.mp late
  case maximal =>
    refine (maximal_of_cut cut).append (.singleton _) ?_
    intro last _ head first both
    obtain rfl := Option.some.inj first
    cases both.2.1
  case differing =>
    intro r member position inside
    obtain ⟨group, found, rfl⟩ | rfl := cases_ r member
    · exact (group_cases (mem_groups cut found)).2.1 position inside
    · cases inside
  case symmetric =>
    intro r member symmetric
    obtain ⟨group, found, rfl⟩ | rfl := cases_ r member
    · exact ⟨(group_cases (mem_groups cut found)).1, rfl, rfl⟩
    · cases symmetric
  case alone =>
    intro r member position inside commutes
    obtain ⟨group, found, rfl⟩ | rfl := cases_ r member
    · exact (group_cases (mem_groups cut found)).2.2 position inside commutes
    · cases inside
  case named =>
    intro _ r member position inside
    obtain ⟨group, found, rfl⟩ | rfl := cases_ r member
    · have goes := goesOn position (mem_paired cut found inside)
      exact ((aligned_iff srcLine tgtLine).mp goes).resolve_left
        ((group_cases (mem_groups cut found)).2.1 position inside)
    · cases inside
  case asymmetric =>
    intro r member isAsymmetric
    obtain ⟨group, found, rfl⟩ | rfl := cases_ r member
    · cases isAsymmetric
    · refine ⟨different, ⟨pieces.map pieceOf, rfl, ?_⟩, rfl, rfl, rfl, rfl, ?_⟩
      · intro other member
        obtain ⟨piece, -, same⟩ := List.mem_map.mp member
        cases piece with
        | separator position => cases same
        | group positions =>
          obtain rfl := Piece.region.inj same
          rfl
      intro s t first first'
      have stopped := stops s t first first'
      rw [aligned_iff] at stopped
      push Not at stopped
      exact stopped

end

variable (srcLine tgtLine)

theorem diffInsts_partition (src tgt : List α) : ∃ pieces, Partition srcLine tgtLine src tgt
      (diffInsts srcLine tgtLine src tgt) pieces := by
  have start : stateOf (Grouping.Grouper.start (β := DiffPosition α)) = .initial := rfl
  unfold diffInsts
  rw [← start]
  split
  next equal =>
    obtain ⟨pieces, cut⟩ :=
      Grouping.Grouper.run_cut (role srcLine tgtLine) (paired 0 src tgt)
    have all : (paired 0 src tgt).take src.length = paired 0 src tgt := by
      rw [List.take_of_length_le]
      rw [length_paired, equal, Nat.min_self]
    rw [pairPositions_eq]
    refine ⟨pieces.map pieceOf, partition_of_pairs ?_ rfl equal⟩
    rw [all]
    exact cut
  next different =>
    obtain ⟨pieces, cut⟩ := Grouping.Grouper.run_cut (role srcLine tgtLine)
      ((paired 0 src tgt).takeWhile (aligned srcLine tgtLine))
    obtain ⟨srcFits, tgtFits⟩ := alignedCount_le srcLine tgtLine 0 src tgt
    have goesOn : ∀ position ∈ (paired 0 src tgt).takeWhile
        (aligned srcLine tgtLine), aligned srcLine tgtLine position = true :=
      fun position member => List.mem_takeWhile_imp member
    have stops := aligned_stops srcLine tgtLine 0 src tgt
    rw [pairAligned_eq]
    dsimp only
    rw [Nat.zero_add] at stops ⊢
    rw [if_neg]
    · rw [takeWhile_eq_take] at cut goesOn ⊢
      exact ⟨_, partition_of_aligned cut srcFits tgtFits different goesOn stops⟩
    · intro empty
      rw [Bool.and_eq_true, List.isEmpty_iff, List.isEmpty_iff,
        List.drop_eq_nil_iff, List.drop_eq_nil_iff] at empty
      exact different (le_antisymm (empty.1.trans tgtFits) (empty.2.trans srcFits))

/-- The regions and the identical pairs partition both functions, whenever
there are regions at all. -/
theorem computeDiffRegions_partition {src tgt : Function α}
    {result : DiffResult α} (computed : computeDiffRegions srcLine tgtLine src tgt = some result) :
    ∃ srcBB tgtBB, src.blocks = [srcBB] ∧ tgt.blocks = [tgtBB] ∧
      ∃ pieces, Partition srcLine tgtLine (nonTerminators srcLine srcBB)
        (nonTerminators tgtLine tgtBB) result pieces := by
  unfold computeDiffRegions at computed
  split at computed
  next srcBB tgtBB srcBlocks tgtBlocks =>
    dsimp only at computed
    split at computed
    next => cases computed
    next =>
      obtain rfl := Option.some.inj computed
      obtain ⟨pieces, parts⟩ := diffInsts_partition srcLine tgtLine
        (nonTerminators srcLine srcBB) (nonTerminators tgtLine tgtBB)
      exact ⟨srcBB, tgtBB, srcBlocks, tgtBlocks, pieces, parts⟩
  next => cases computed

end

section

def shortLine (text : String) (name : String) (isTerminator : Bool) : Line Nat where
  printed := text.toList
  opcode := 0
  name := ascii name
  operandKeys := [[]]
  isTerminator := isTerminator

def shortSrc : Function (Line Nat) where
  name := ascii "src"
  blocks := [[shortLine "  %a = freeze i8 %x" "a" false,
    shortLine "  %b = freeze i8 %a" "b" false, shortLine "  ret i8 %b" "" true]]

def shortTgt : Function (Line Nat) where
  name := ascii "tgt"
  blocks := [[shortLine "  %a = freeze i8 %x" "a" false,
    shortLine "  %b = freeze i8 %x" "b" false,
    shortLine "  %c = freeze i8 %b" "c" false, shortLine "  ret i8 %b" "" true]]

theorem computeDiffRegions_partition_short :
    ∃ result, computeDiffRegions id id shortSrc shortTgt = some result ∧
      ∃ srcBB tgtBB, shortSrc.blocks = [srcBB] ∧ shortTgt.blocks = [tgtBB] ∧
        ∃ pieces, Partition id id (nonTerminators id srcBB) (nonTerminators id tgtBB)
          result pieces := by
  obtain ⟨result, computed⟩ : ∃ result, computeDiffRegions id id shortSrc shortTgt = some result :=
    ⟨_, rfl⟩
  exact ⟨result, computed, computeDiffRegions_partition id id computed⟩

end

section

open TvNext (operandKeys)

/-- What the comparison reads of an instruction of the fragment. -/
def lineOf (body : Body) (inst : Instruction) : Line Opcode where
  printed := inst.print body.identOf
  opcode := inst.op.opcode
  name := inst.name
  operandKeys := operandKeys body inst
  isTerminator := false

def positionOf (position : TvNext.DiffPosition) : DiffPosition Instruction :=
  ⟨position.instIdx, position.srcInst, position.tgtInst⟩

def regionOf (r : TvNext.DiffRegion) : DiffRegion Instruction where
  positions := r.positions.map positionOf
  isAsymmetric := r.isAsymmetric
  srcRegion := r.srcRegion
  tgtRegion := r.tgtRegion
  srcStartIdx := r.srcStartIdx
  tgtStartIdx := r.tgtStartIdx

def loopOf (state : TvNext.DiffState) : DiffState Instruction :=
  ⟨state.regions.map regionOf, state.current.map positionOf, state.identicalCount⟩

variable {src tgt : Body} (state : TvNext.DiffState)

theorem loopOf_flush : loopOf state.flush = (loopOf state).flush := by
  obtain ⟨regions, current, identicalCount⟩ := state
  cases current with
  | nil => rfl
  | cons head rest =>
    simp [loopOf, regionOf, TvNext.DiffState.flush, DiffState.flush]

theorem loopOf_push (position : TvNext.DiffPosition) :
    loopOf (state.push position) = (loopOf state).push (positionOf position) := by
  simp [loopOf, TvNext.DiffState.push, DiffState.push]

theorem loopOf_identical : loopOf state.identical = (loopOf state).identical :=
  loopOf_flush _

theorem loopOf_differing (position : TvNext.DiffPosition) :
    loopOf (state.differing src tgt position) = differing (lineOf src) (lineOf tgt) (loopOf state)
        (positionOf position) := by
  unfold TvNext.DiffState.differing differing
  by_cases commutes : TvNext.isLikelyCommutativity src tgt position.srcInst position.tgtInst = true
  · rw [if_pos commutes, if_pos (by exact commutes), loopOf_flush, loopOf_push, loopOf_flush]
  · rw [if_neg commutes, if_neg (by exact commutes), loopOf_push]

theorem pairPositions_lineOf (i : Nat) (ss ts : List Instruction) :
    loopOf (TvNext.pairPositions src tgt i ss ts state) =
      pairPositions (lineOf src) (lineOf tgt) i ss ts (loopOf state) := by
  induction ss generalizing i ts state with
  | nil => simp [TvNext.pairPositions, pairPositions, loopOf_flush]
  | cons s ss ih =>
    cases ts with
    | nil => simp [TvNext.pairPositions, pairPositions, loopOf_flush]
    | cons t ts =>
      rw [TvNext.pairPositions, pairPositions]
      by_cases same : TvNext.instAsText src s = TvNext.instAsText tgt t
      · rw [if_pos same, if_pos (by exact same), ih, loopOf_identical]
      · rw [if_neg same, if_neg (by exact same), ih, loopOf_differing]
        rfl

theorem pairAligned_lineOf (i : Nat) (ss ts : List Instruction) :
    pairAligned (lineOf src) (lineOf tgt) i ss ts (loopOf state) =
      (loopOf (TvNext.pairAligned src tgt i ss ts state).1,
        (TvNext.pairAligned src tgt i ss ts state).2) := by
  induction ss generalizing i ts state with
  | nil => simp [TvNext.pairAligned, pairAligned, loopOf_flush]
  | cons s ss ih =>
    cases ts with
    | nil => simp [TvNext.pairAligned, pairAligned, loopOf_flush]
    | cons t ts =>
      rw [TvNext.pairAligned, pairAligned]
      by_cases same : TvNext.instAsText src s = TvNext.instAsText tgt t
      · rw [if_pos same, if_pos (by exact same), ← loopOf_identical, ih]
      · rw [if_neg same, if_neg (by exact same)]
        by_cases named : (s.hasName && t.hasName && s.name == t.name) = true
        · rw [if_pos named, if_pos (by exact named), ← ih, loopOf_differing]
          rfl
        · rw [if_neg named, if_neg (by exact named), loopOf_flush]

theorem diffBodies_lineOf (src tgt : Body) :
    diffInsts (lineOf src) (lineOf tgt) src.insts tgt.insts =
      ⟨(TvNext.diffBodies src tgt).regions.map regionOf,
        (TvNext.diffBodies src tgt).identicalCount⟩ := by
  have start : loopOf .initial = .initial := rfl
  unfold diffInsts TvNext.diffBodies
  rw [← start]
  split
  next => rw [← pairPositions_lineOf]; rfl
  next =>
    rw [pairAligned_lineOf]
    dsimp only
    split
    next => rfl
    next => simp [loopOf, regionOf, asymmetricRegion, TvNext.asymmetricRegion]

end

end AliveNext.TvNext.AnyInst
