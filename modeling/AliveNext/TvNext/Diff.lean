import AliveNext.LLVM.Slots

/-!
# Structural diffing

`computeDiffRegions` compares two single-block functions line by line and
groups the differing positions into regions.  With equal instruction counts
the positions are paired one by one; otherwise the walk stops at the first
pair that shares neither its text nor its result name, and everything after it
becomes one asymmetric region.

The result is described by `Tiling`: the two bodies are cut into identical
pairs and regions, in order and without gaps.
-/

namespace AliveNext.TvNext

open AliveNext.LLVM

/-- `s.resize(s.find(", !"))`. -/
def cutMetadata : Text → Text
  | ',' :: ' ' :: '!' :: _ => []
  | c :: rest => c :: cutMetadata rest
  | [] => []

def lineAsText (line : Text) : Text :=
  (cutMetadata line).dropWhile fun c => c == ' ' || c == '\t'

section

variable (body : Body)

def instAsText (inst : Instruction) : Text :=
  lineAsText (inst.print body.identOf)

/-- `instAsText` on the terminator. -/
def termAsText : Text :=
  lineAsText (body.block.term.print body.identOf)

/-- `operandKey`: the text of a constant, else the name. -/
def operandKey {w : Nat} (operand : Operand Reg w) : Text :=
  match operand with
  | .const value => constText value
  | .undef => "undef".toList
  | .poison => "poison".toList
  | .reg r => (body.nameOf r).map fun b => Char.ofNat b.val

def operandKeys (inst : Instruction) : List Text :=
  match inst.op with
  | .value (.withOverflow _ _ _) => [[]]
  | .value rhs => rhs.operands.map fun operand => operandKey body operand.2
  | .assume cond => [operandKey body cond, "@llvm.assume".toList]

end

/-- `isLikelyCommutativity`: the same binary operation on the same operands,
in any order, under the same name. -/
def isLikelyCommutativity (src tgt : Body) (s t : Instruction) : Bool :=
  s.op.opcode == t.op.opcode &&
    (operandKeys src s).length == 2 && (operandKeys tgt t).length == 2 &&
    s.name == t.name &&
    (operandKeys src s).isPerm (operandKeys tgt t)

structure DiffPosition where
  instIdx : Nat
  srcInst : Instruction
  tgtInst : Instruction

structure DiffRegion where
  positions : List DiffPosition := []
  isAsymmetric : Bool := false
  srcRegion : List Instruction := []
  tgtRegion : List Instruction := []
  srcStartIdx : Nat := 0
  tgtStartIdx : Nat := 0

structure DiffResult where
  regions : List DiffRegion
  identicalCount : Nat

namespace DiffRegion

def srcInsts (region : DiffRegion) : List Instruction :=
  if region.isAsymmetric then region.srcRegion
  else region.positions.map DiffPosition.srcInst

def tgtInsts (region : DiffRegion) : List Instruction :=
  if region.isAsymmetric then region.tgtRegion
  else region.positions.map DiffPosition.tgtInst

end DiffRegion

/-- Why `computeDiffRegions` gives up. -/
inductive DiffError where
  | blockCount (src : Name) (srcSize : Nat) (tgt : Name) (tgtSize : Nat)
  | terminator (src tgt : Name) (srcText tgtText : Text)

/-- The variables of the pairing loop. -/
structure DiffState where
  regions : List DiffRegion
  current : List DiffPosition
  identicalCount : Nat

namespace DiffState

def initial : DiffState :=
  ⟨[], [], 0⟩

/-- `flush_group`. -/
def flush (state : DiffState) : DiffState :=
  if state.current.isEmpty then state
  else
    { state with
      regions := state.regions ++ [{ positions := state.current }]
      current := [] }

def identical (state : DiffState) : DiffState :=
  { state with identicalCount := state.identicalCount + 1 }.flush

def push (state : DiffState) (position : DiffPosition) : DiffState :=
  { state with current := state.current ++ [position] }

def differing (src tgt : Body) (state : DiffState) (position : DiffPosition) : DiffState :=
  if isLikelyCommutativity src tgt position.srcInst position.tgtInst then
    (state.flush.push position).flush
  else
    state.push position

end DiffState

/-- The loop for equal instruction counts. -/
def pairPositions (src tgt : Body) :
    Nat → List Instruction → List Instruction → DiffState → DiffState
  | i, s :: ss, t :: ts, state =>
    if instAsText src s = instAsText tgt t then
      pairPositions src tgt (i + 1) ss ts state.identical
    else
      pairPositions src tgt (i + 1) ss ts (state.differing src tgt ⟨i, s, t⟩)
  | _, _, _, state => state.flush

/-- The loop for different instruction counts; it also returns the position
where it stopped and what is left on each side. -/
def pairAligned (src tgt : Body) : Nat → List Instruction → List Instruction → DiffState →
      DiffState × Nat × List Instruction × List Instruction
  | i, s :: ss, t :: ts, state =>
    if instAsText src s = instAsText tgt t then
      pairAligned src tgt (i + 1) ss ts state.identical
    else if s.hasName && t.hasName && s.name == t.name then
      pairAligned src tgt (i + 1) ss ts (state.differing src tgt ⟨i, s, t⟩)
    else
      (state.flush, i, s :: ss, t :: ts)
  | i, ss, ts, state => (state.flush, i, ss, ts)

/-- The region that holds everything after the aligned part. -/
def asymmetricRegion (start : Nat) (ss ts : List Instruction) : DiffRegion where
  isAsymmetric := true
  srcRegion := ss
  tgtRegion := ts
  srcStartIdx := start
  tgtStartIdx := start

def diffBodies (src tgt : Body) : DiffResult :=
  if src.insts.length = tgt.insts.length then
    let state := pairPositions src tgt 0 src.insts tgt.insts .initial
    ⟨state.regions, state.identicalCount⟩
  else
    let (state, start, ss, ts) :=
      pairAligned src tgt 0 src.insts tgt.insts .initial
    if ss.isEmpty && ts.isEmpty then ⟨state.regions, state.identicalCount⟩
    else
      ⟨state.regions ++ [asymmetricRegion start ss ts], state.identicalCount⟩

def computeDiffRegions (src tgt : Function) : Except DiffError DiffResult :=
  match src.blocks, tgt.blocks with
  | [srcBB], [tgtBB] =>
    let srcBody : Body := ⟨src.args, srcBB⟩
    let tgtBody : Body := ⟨tgt.args, tgtBB⟩
    if termAsText srcBody ≠ termAsText tgtBody then
      .error (.terminator src.name tgt.name (termAsText srcBody) (termAsText tgtBody))
    else
      .ok (diffBodies srcBody tgtBody)
  | srcBlocks, tgtBlocks =>
    .error (.blockCount src.name srcBlocks.length tgt.name tgtBlocks.length)

def CutFree (text : Text) : Prop :=
  ¬ [',', ' ', '!'] <:+: text

instance (text : Text) : Decidable (CutFree text) :=
  inferInstanceAs (Decidable (¬ _))

private theorem cutMetadata_cons {c : Char} {rest : Text}
    (noMark : ¬ [',', ' ', '!'] <+: c :: rest) :
    cutMetadata (c :: rest) = c :: cutMetadata rest := by
  apply cutMetadata.eq_2
  rintro tail rfl rfl
  exact noMark ⟨tail, rfl⟩

variable {bare : Text} {body src tgt : Body}

theorem cutMetadata_append (clean : CutFree bare) (metadata : List Text) :
    cutMetadata (bare ++ metadataText metadata) = bare := by
  induction bare with
  | nil => cases metadata <;> rfl
  | cons c rest ih =>
    have cleanRest : CutFree rest := fun inside =>
      clean (List.infix_cons inside)
    have noMark : ¬ [',', ' ', '!'] <+: c :: (rest ++ metadataText metadata) := by
      rintro ⟨tail, shape⟩
      simp only [List.cons_append, List.nil_append, List.cons.injEq] at shape
      obtain ⟨rfl, shape⟩ := shape
      -- the mark would have to straddle the end of the bare text, but
      -- metadata itself starts with a comma
      match rest, shape with
      | [], shape => cases metadata <;> simp [metadataText] at shape
      | [d], shape => cases metadata <;> simp [metadataText] at shape
      | d :: e :: rest', shape =>
        simp only [List.cons_append, List.cons.injEq] at shape
        obtain ⟨rfl, rfl, -⟩ := shape
        exact clean ⟨[], rest', rfl⟩
    rw [List.cons_append, cutMetadata_cons noMark, ih cleanRest]

private theorem cutFree_indented (clean : CutFree bare) : CutFree (' ' :: ' ' :: bare) := by
  intro inside
  rcases List.infix_cons_iff.mp inside with front | inside
  · simp at front
  · rcases List.infix_cons_iff.mp inside with front | inside
    · simp at front
    · exact clean inside

theorem lineAsText_indented (clean : CutFree bare)
    (head : ∃ c rest, bare = c :: rest ∧ c ≠ ' ' ∧ c ≠ '\t') (metadata : List Text) :
    lineAsText (' ' :: ' ' :: (bare ++ metadataText metadata)) = bare := by
  have cut := cutMetadata_append (cutFree_indented clean) metadata
  rw [List.cons_append, List.cons_append] at cut
  obtain ⟨c, rest, rfl, notBlank, notTab⟩ := head
  rw [lineAsText, cut]
  simp [notBlank, notTab]

theorem instAsText_eq {inst : Instruction} (clean : CutFree (inst.bareText body.identOf)) :
    instAsText body inst = inst.bareText body.identOf :=
  lineAsText_indented clean (inst.bareText_head body.identOf) inst.metadata

theorem termAsText_eq (clean : CutFree (body.block.term.bareText body.identOf)) :
    termAsText body = body.block.term.bareText body.identOf :=
  lineAsText_indented clean (TermOp.text_head _) body.block.term.metadata


/-- A piece of the two bodies. -/
inductive Segment where
  | identical (s t : Instruction)
  | region (r : DiffRegion)

namespace Segment

def srcInsts : Segment → List Instruction
  | .identical s _ => [s]
  | .region r => r.srcInsts

def tgtInsts : Segment → List Instruction
  | .identical _ t => [t]
  | .region r => r.tgtInsts

def pairs : Segment → List (Instruction × Instruction)
  | .identical s t => [(s, t)]
  | .region r => r.positions.map fun p => (p.srcInst, p.tgtInst)

def region? : Segment → Option DiffRegion
  | .identical _ _ => none
  | .region r => some r

end Segment

/-- The segments cover both bodies in order, and the regions among them are
the given ones. -/
structure Tiling (src tgt : Body) (regions : List DiffRegion) (segments : List Segment) : Prop where
  src_eq : segments.flatMap Segment.srcInsts = src.insts
  tgt_eq : segments.flatMap Segment.tgtInsts = tgt.insts
  regions_eq : segments.filterMap Segment.region? = regions
  same : ∀ s t, .identical s t ∈ segments → instAsText src s = instAsText tgt t
  paired : ∀ segment ∈ segments, ∀ pair ∈ segment.pairs, pair ∈ src.insts.zip tgt.insts
  unpaired : ∀ r, .region r ∈ segments → r.isAsymmetric = true → r.positions = []

namespace DiffState

/-- Invariant of the pairing loops: the instructions seen so far are tiled by
segments and the current group. -/
structure Tiles (src tgt : Body) (ss ts : List Instruction)
    (state : DiffState) (segments : List Segment) : Prop where
  src_eq : segments.flatMap Segment.srcInsts ++ state.current.map DiffPosition.srcInst = ss
  tgt_eq : segments.flatMap Segment.tgtInsts ++ state.current.map DiffPosition.tgtInst = ts
  regions_eq : segments.filterMap Segment.region? = state.regions
  same : ∀ s t, .identical s t ∈ segments → instAsText src s = instAsText tgt t
  symmetric : ∀ r, .region r ∈ segments → r.isAsymmetric = false

variable {src tgt : Body} {ss ts : List Instruction} {state : DiffState}

theorem flush_current (state : DiffState) : state.flush.current = [] := by
  unfold flush
  split
  · rename_i empty
    simpa using empty
  · rfl

variable {segments : List Segment}

variable (tiles : Tiles src tgt ss ts state segments)

include tiles

private theorem tiles_flush : ∃ segments', Tiles src tgt ss ts state.flush segments' := by
  unfold flush
  split
  · exact ⟨segments, tiles⟩
  · refine ⟨segments ++ [.region { positions := state.current }], ⟨?_, ?_, ?_, ?_, ?_⟩⟩
    · simpa [Segment.srcInsts, DiffRegion.srcInsts] using tiles.src_eq
    · simpa [Segment.tgtInsts, DiffRegion.tgtInsts] using tiles.tgt_eq
    · simp [Segment.region?, tiles.regions_eq]
    · intro s t member
      rcases List.mem_append.mp member with member | member
      · exact tiles.same s t member
      · simp at member
    · intro r member
      rcases List.mem_append.mp member with member | member
      · exact tiles.symmetric r member
      · simp only [List.mem_singleton, Segment.region.injEq] at member
        rw [member]

private theorem tiles_push (position : DiffPosition) :
    Tiles src tgt (ss ++ [position.srcInst]) (ts ++ [position.tgtInst])
      (state.push position) segments where
  src_eq := by simp [push, ← tiles.src_eq]
  tgt_eq := by simp [push, ← tiles.tgt_eq]
  regions_eq := tiles.regions_eq
  same := tiles.same
  symmetric := tiles.symmetric

private theorem tiles_identical {s t : Instruction} (same : instAsText src s = instAsText tgt t) :
    ∃ segments', Tiles src tgt (ss ++ [s]) (ts ++ [t]) state.identical segments' := by
  -- the group in front of the pair is closed first
  have counted : Tiles src tgt ss ts
      { state with identicalCount := state.identicalCount + 1 } segments :=
    ⟨tiles.src_eq, tiles.tgt_eq, tiles.regions_eq, tiles.same, tiles.symmetric⟩
  obtain ⟨flushed, flushTiles⟩ := tiles_flush counted
  have closed := flush_current { state with identicalCount := state.identicalCount + 1 }
  refine ⟨flushed ++ [.identical s t], ⟨?_, ?_, ?_, ?_, ?_⟩⟩
  · have covered := flushTiles.src_eq
    rw [closed, List.map_nil, List.append_nil] at covered
    simp [identical, closed, covered, Segment.srcInsts]
  · have covered := flushTiles.tgt_eq
    rw [closed, List.map_nil, List.append_nil] at covered
    simp [identical, closed, covered, Segment.tgtInsts]
  · rw [List.filterMap_append, flushTiles.regions_eq]
    exact List.append_nil _
  · intro s' t' member
    rcases List.mem_append.mp member with member | member
    · exact flushTiles.same s' t' member
    · simp only [List.mem_singleton, Segment.identical.injEq] at member
      rw [member.1, member.2]
      exact same
  · intro r member
    rcases List.mem_append.mp member with member | member
    · exact flushTiles.symmetric r member
    · simp at member

private theorem tiles_differing (position : DiffPosition) :
    ∃ segments', Tiles src tgt (ss ++ [position.srcInst]) (ts ++ [position.tgtInst])
        (state.differing src tgt position) segments' := by
  unfold differing
  split
  · obtain ⟨flushed, flushTiles⟩ := tiles_flush tiles
    exact tiles_flush (tiles_push flushTiles position)
  · exact ⟨segments, tiles_push tiles position⟩

end DiffState

open DiffState in
private theorem tiles_pairPositions :
    ∀ (i : Nat) (ss ts doneS doneT : List Instruction) (state : DiffState)
      (segments : List Segment), ss.length = ts.length →
      Tiles src tgt doneS doneT state segments →
        (pairPositions src tgt i ss ts state).current = [] ∧
          ∃ segments', Tiles src tgt (doneS ++ ss) (doneT ++ ts)
            (pairPositions src tgt i ss ts state) segments'
  | _, [], [], doneS, doneT, state, segments, _, tiles => by
    simp only [pairPositions, List.append_nil]
    exact ⟨flush_current state, tiles_flush tiles⟩
  | i, s :: ss, t :: ts, doneS, doneT, state, segments, lengths, tiles => by
    have restLengths : ss.length = ts.length := by simpa using lengths
    rw [List.append_cons doneS s ss, List.append_cons doneT t ts]
    unfold pairPositions
    split
    · rename_i same
      obtain ⟨next, nextTiles⟩ := tiles_identical tiles same
      exact tiles_pairPositions (i + 1) ss ts _ _ _ next restLengths nextTiles
    · obtain ⟨next, nextTiles⟩ := tiles_differing tiles ⟨i, s, t⟩
      exact tiles_pairPositions (i + 1) ss ts _ _ _ next restLengths nextTiles
  | _, [], _ :: _, _, _, _, _, lengths, _ => by simp at lengths
  | _, _ :: _, [], _, _, _, _, lengths, _ => by simp at lengths

open DiffState in
private theorem tiles_pairAligned :
    ∀ (i : Nat) (ss ts doneS doneT : List Instruction) (state : DiffState)
      (segments : List Segment),
      Tiles src tgt doneS doneT state segments → ∀ final start restS restT,
          pairAligned src tgt i ss ts state = (final, start, restS, restT) → final.current = [] ∧
              ∃ coveredS coveredT segments', coveredS ++ restS = doneS ++ ss ∧
                  coveredT ++ restT = doneT ++ ts ∧
                  Tiles src tgt coveredS coveredT final segments' := by
  intro i ss ts doneS doneT state segments tiles
  have stop : ∀ final start restS restT, (state.flush, i, ss, ts) = (final, start, restS, restT) →
        final.current = [] ∧ ∃ coveredS coveredT segments', coveredS ++ restS = doneS ++ ss ∧
              coveredT ++ restT = doneT ++ ts ∧
              Tiles src tgt coveredS coveredT final segments' := by
    rintro final start restS restT stopped
    cases stopped
    obtain ⟨flushed, flushTiles⟩ := tiles_flush tiles
    exact ⟨flush_current state, doneS, doneT, flushed, rfl, rfl, flushTiles⟩
  intro final start restS restT result
  match ss, ts with
  | s :: ss, t :: ts =>
    unfold pairAligned at result
    split at result
    · rename_i same
      obtain ⟨next, nextTiles⟩ := tiles_identical tiles same
      rw [List.append_cons doneS s ss, List.append_cons doneT t ts]
      exact tiles_pairAligned (i + 1) ss ts _ _ _ next nextTiles _ _ _ _ result
    · split at result
      · obtain ⟨next, nextTiles⟩ := tiles_differing tiles ⟨i, s, t⟩
        rw [List.append_cons doneS s ss, List.append_cons doneT t ts]
        exact tiles_pairAligned (i + 1) ss ts _ _ _ next nextTiles _ _ _ _ result
      · exact stop final start restS restT result
  | [], ts => exact stop final start restS restT (by simpa [pairAligned] using result)
  | s :: ss, [] =>
    exact stop final start restS restT (by simpa [pairAligned] using result)

private theorem zip_of_symmetric {segment : Segment}
    (symmetric : ∀ r, segment = .region r → r.isAsymmetric = false) :
    segment.srcInsts.length = segment.tgtInsts.length ∧
      segment.srcInsts.zip segment.tgtInsts = segment.pairs := by
  cases segment with
  | identical s t => exact ⟨rfl, rfl⟩
  | region r =>
    simp [Segment.srcInsts, Segment.tgtInsts, Segment.pairs,
      DiffRegion.srcInsts, DiffRegion.tgtInsts, symmetric r rfl,
      List.zip_map']

private theorem mem_zip_of_symmetric (restS restT : List Instruction) : ∀ segments : List Segment,
      (∀ r, .region r ∈ segments → r.isAsymmetric = false) →
        ∀ segment ∈ segments, ∀ pair ∈ segment.pairs,
          pair ∈ (segments.flatMap Segment.srcInsts ++ restS).zip
            (segments.flatMap Segment.tgtInsts ++ restT)
  | [], _, _, inside, _, _ => absurd inside List.not_mem_nil
  | head :: rest, symmetric, segment, inside, pair, paired => by
    obtain ⟨balanced, zipped⟩ :=
      zip_of_symmetric fun r (same : head = .region r) =>
        symmetric r (same ▸ List.mem_cons_self)
    rw [List.flatMap_cons, List.flatMap_cons, List.append_assoc,
      List.append_assoc, List.zip_append balanced, List.mem_append, zipped]
    rcases List.mem_cons.mp inside with rfl | inside
    · exact Or.inl paired
    · exact Or.inr (mem_zip_of_symmetric restS restT rest
        (fun r inRest => symmetric r (List.mem_cons_of_mem head inRest))
        segment inside pair paired)

/-- A finished loop gives a tiling of the covered part, and with the region
of everything that is left a tiling of the whole. -/
private theorem tiling_of_tiles {state : DiffState}
    {coveredS coveredT restS restT : List Instruction} {segments : List Segment}
    (last : List Segment) (tiles : state.Tiles src tgt coveredS coveredT segments)
    (closed : state.current = []) (srcRest : coveredS ++ restS = src.insts)
    (tgtRest : coveredT ++ restT = tgt.insts) (srcLast : last.flatMap Segment.srcInsts = restS)
    (tgtLast : last.flatMap Segment.tgtInsts = restT)
    (unpaired : ∀ segment ∈ last, segment.pairs = []) :
    Tiling src tgt (state.regions ++ last.filterMap Segment.region?) (segments ++ last) := by
  have srcCovered := tiles.src_eq
  have tgtCovered := tiles.tgt_eq
  rw [closed, List.map_nil, List.append_nil] at srcCovered tgtCovered
  constructor
  · rw [List.flatMap_append, srcCovered, srcLast, srcRest]
  · rw [List.flatMap_append, tgtCovered, tgtLast, tgtRest]
  · rw [List.filterMap_append, tiles.regions_eq]
  · intro s t member
    rcases List.mem_append.mp member with early | late
    · exact tiles.same s t early
    · cases unpaired _ late
  · intro segment member pair paired
    rcases List.mem_append.mp member with early | late
    · rw [← srcRest, ← tgtRest, ← srcCovered, ← tgtCovered]
      exact mem_zip_of_symmetric restS restT segments tiles.symmetric segment early pair paired
    · rw [unpaired segment late] at paired
      cases paired
  · intro r member asymmetric
    rcases List.mem_append.mp member with early | late
    · rw [tiles.symmetric r early] at asymmetric
      cases asymmetric
    · simpa [Segment.pairs] using unpaired _ late

theorem diffBodies_tiling (src tgt : Body) :
    ∃ segments, Tiling src tgt (diffBodies src tgt).regions segments := by
  have start : DiffState.Tiles src tgt [] [] .initial [] :=
    ⟨rfl, rfl, rfl, fun _ _ member => absurd member List.not_mem_nil,
      fun _ => (absurd · List.not_mem_nil)⟩
  unfold diffBodies
  split
  · rename_i lengths
    obtain ⟨closed, segments, tiles⟩ :=
      tiles_pairPositions 0 src.insts tgt.insts [] [] .initial [] lengths start
    have tiling := tiling_of_tiles [] tiles closed
      (List.append_nil _) (List.append_nil _) rfl rfl (by simp)
    rw [List.filterMap_nil, List.append_nil] at tiling
    exact ⟨_, tiling⟩
  · obtain ⟨⟨state, stopped, restS, restT⟩, result⟩ :
        ∃ result, pairAligned src tgt 0 src.insts tgt.insts .initial = result :=
      ⟨_, rfl⟩
    obtain ⟨closed, coveredS, coveredT, segments, srcRest, tgtRest, tiles⟩ :=
      tiles_pairAligned 0 src.insts tgt.insts [] [] .initial [] start
        state stopped restS restT result
    rw [result]
    dsimp only
    split
    · rename_i empty
      simp only [Bool.and_eq_true, List.isEmpty_iff] at empty
      have tiling := tiling_of_tiles [] tiles closed srcRest tgtRest
        empty.1.symm empty.2.symm (by simp)
      rw [List.filterMap_nil, List.append_nil] at tiling
      exact ⟨_, tiling⟩
    · exact ⟨_, tiling_of_tiles
        [.region (asymmetricRegion stopped restS restT)] tiles closed srcRest tgtRest
        (by simp [Segment.srcInsts, DiffRegion.srcInsts, asymmetricRegion])
        (by simp [Segment.tgtInsts, DiffRegion.tgtInsts, asymmetricRegion])
        (by simp [Segment.pairs, asymmetricRegion])⟩

end AliveNext.TvNext
