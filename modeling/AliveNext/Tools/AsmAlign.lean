import AliveNext.Lib.Worklist

/-!
# Alignment of assembly targets

The last loop of `Transform::preprocess` raises the alignment of the accesses of
an assembly target to the one of the source (`tools/transform.cpp`).
-/

namespace AliveNext.Tools.Asm

universe u

inductive Access
  | load
  | store
  deriving DecidableEq

/-- The instructions: the loads and the stores with the width of their type and
their alignment. -/
inductive Instr (ι : Type u)
  | access (kind : Access) (bits align : Nat)
  | other (instr : ι)
  deriving DecidableEq

structure BasicBlock (ι : Type u) where
  instrs : List (Instr ι)
  targets : List Nat
  deriving DecidableEq

structure Function (ι : Type u) where
  blocks : List (BasicBlock ι)
  nonempty : blocks ≠ []
  inBounds : ∀ bb ∈ blocks, ∀ t ∈ bb.targets, t < blocks.length

inductive BlockRef
  | src (index : Nat)
  | tgt (index : Nat)
  deriving DecidableEq

/-! ## The least alignment of each width -/

/-- `src_loads` and `min_loads`, or the same of the stores. -/
structure Minima where
  widths : Nat → Option Nat
  least : Nat

def Minima.empty : Minima := ⟨fun _ => none, 2 ^ 64 - 1⟩

/-- The second of the entry of a width: `emplace`, or the smaller alignment. -/
def smaller (old : Option Nat) (align : Nat) : Nat :=
  match old with
  | none => align
  | some old => min old align

def Minima.add (minima : Minima) (bits align : Nat) : Minima :=
  let entry := smaller (minima.widths bits) align
  ⟨Function.update minima.widths bits (some entry), min minima.least entry⟩

section

variable {ι : Type u}

def noteInstr (minima : Access → Minima) : Instr ι → Access → Minima
  | .access kind bits align => Function.update minima kind ((minima kind).add bits align)
  | .other _ => minima

/-- The loop over the instructions of `src_bb`. -/
def noteBlock (instrs : List (Instr ι)) : Access → Minima :=
  instrs.foldl noteInstr fun _ => .empty

/-- The loop over the instructions of `tgt_bb`. -/
def raiseInstr (minima : Access → Minima) : Instr ι → Instr ι
  | .access kind bits align =>
    match (minima kind).widths bits with
    | none => .access kind bits align
    | some least =>
      let newAlign := min (min least (minima kind).least) (bits / 8)
      if align < newAlign then .access kind bits newAlign else .access kind bits align
  | .other instr => .other instr

def raiseBlock (minima : Access → Minima) (bb : BasicBlock ι) : BasicBlock ι :=
  { bb with instrs := bb.instrs.map (raiseInstr minima) }

/-- The state of the loop: the two functions, `seen` and `worklist`. -/
structure State (ι : Type u) where
  src : Function ι
  tgt : Function ι
  seen : List BlockRef
  worklist : List (BlockRef × BlockRef)

namespace Function

variable (fn : Function ι)

def block (index : Nat) : BasicBlock ι := fn.blocks[index]?.getD ⟨[], []⟩

def raise (minima : Access → Minima) (index : Nat) : Function ι where
  blocks := fn.blocks.modify index (raiseBlock minima)
  nonempty := by
    intro none
    have length := congrArg List.length none
    rw [List.length_modify] at length
    exact fn.nonempty (List.eq_nil_of_length_eq_zero length)
  inBounds := by
    intro bb member t target
    rw [List.length_modify]
    obtain ⟨i, inside, rfl⟩ := List.mem_iff_getElem.1 member
    rw [List.length_modify] at inside
    rw [List.getElem_modify] at target
    refine fn.inBounds fn.blocks[i] (List.getElem_mem inside) t ?_
    split at target
    · exact target
    · exact target

end Function

namespace State

variable (st : State ι)

def block : BlockRef → BasicBlock ι
  | .src index => st.src.block index
  | .tgt index => st.tgt.block index

/-- `bb->targets()`. -/
def targets : BlockRef → List BlockRef
  | .src index => (st.src.block index).targets.map .src
  | .tgt index => (st.tgt.block index).targets.map .tgt

/-- What `setAlign` does to the instructions of the block. -/
def raise (minima : Access → Minima) : BlockRef → State ι
  | .src index => { st with src := st.src.raise minima index }
  | .tgt index => { st with tgt := st.tgt.raise minima index }

/-- One round for the pair in front. The source takes `tgt_targets` from `src_bb`. -/
def pairBlocks (srcBb tgtBb : BlockRef) : State ι :=
  if srcBb ∈ st.seen then st
  else
    let tgtTargets := st.targets srcBb
    let raised := st.raise (noteBlock (st.block srcBb).instrs) tgtBb
    { raised with
      seen := srcBb :: st.seen
      worklist := st.worklist ++ (st.targets srcBb).zip tgtTargets }

def step : Option (State ι) :=
  match st.worklist with
  | [] => none
  | (srcBb, tgtBb) :: rest => some ({ st with worklist := rest }.pairBlocks srcBb tgtBb)

/-- The rounds of the loop, at most so many. -/
def run : Nat → State ι → State ι
  | 0, st => st
  | rounds + 1, st =>
    match st.step with
    | none => st
    | some next => run rounds next

end State

def start (src tgt : Function ι) : State ι where
  src := src
  tgt := tgt
  seen := []
  worklist := [(.src 0, .tgt 0)]

inductive Reaches (src tgt : Function ι) : State ι → Prop
  | start : Reaches src tgt (start src tgt)
  | step {st next : State ι} : Reaches src tgt st → st.step = some next → Reaches src tgt next

def Paired (src tgt : Function ι) (pair : BlockRef × BlockRef) : Prop :=
  ∃ st, Reaches src tgt st ∧ pair ∈ st.worklist

structure LeastAlign (instrs : List (Instr ι)) (kind : Access) (bits least : Nat) : Prop where
  attained : .access kind bits least ∈ instrs
  le : ∀ align, .access kind bits align ∈ instrs → least ≤ align

/-- An instruction of a target block, before and after: it is the same one, or an access whose
alignment grew and is at most the smallest one in a source block paired with the block. -/
def RaisedTo (src tgt : Function ι) (index : Nat) (before after : Instr ι) : Prop :=
  after = before ∨ ∃ kind bits align newAlign least i,
      before = .access kind bits align ∧ after = .access kind bits newAlign ∧
      align < newAlign ∧ newAlign ≤ least ∧ Paired src tgt (.src i, .tgt index) ∧
      LeastAlign (src.block i).instrs kind bits least

/-- What the loop is for. -/
structure Aligns (src tgt : Function ι) : Prop where
  pairs : ∀ pair, Paired src tgt pair → ∃ i j, pair = (.src i, .tgt j) ∧
    i < src.blocks.length ∧ j < tgt.blocks.length
  source : ∀ st, Reaches src tgt st → st.src = src
  target : ∀ st, Reaches src tgt st → ∀ index,
    (st.tgt.block index).targets = (tgt.block index).targets ∧
      List.Forall₂ (RaisedTo src tgt index) (tgt.block index).instrs (st.tgt.block index).instrs
  terminates : ∃ rounds, ((start src tgt).run rounds).worklist = []

end

section

variable {ι : Type u} {kind : Access} {bits align least : Nat} {instrs : List (Instr ι)}
  {minima : Access → Minima}

structure NotesOf (instrs : List (Instr ι)) (minima : Access → Minima) : Prop where
  attained : ∀ {kind bits least},
    (minima kind).widths bits = some least → .access kind bits least ∈ instrs
  le : ∀ {kind bits align}, .access kind bits align ∈ instrs →
    ∃ least, (minima kind).widths bits = some least ∧ least ≤ align

theorem NotesOf.leastAlign (notes : NotesOf instrs minima)
    (known : (minima kind).widths bits = some least) : LeastAlign instrs kind bits least := by
  refine ⟨notes.attained known, fun align member => ?_⟩
  obtain ⟨other, same, le⟩ := notes.le member
  rw [known] at same
  cases same
  exact le

theorem widths_add (minima : Minima) (bits align width : Nat) :
    (minima.add bits align).widths width =
      if width = bits then some (smaller (minima.widths bits) align)
      else minima.widths width :=
  Function.update_apply _ _ _ _

theorem smaller_le (old : Option Nat) (align : Nat) : smaller old align ≤ align := by
  cases old with
  | none => exact le_rfl
  | some old => exact min_le_right old align

theorem smaller_choice (old : Option Nat) (align : Nat) :
    smaller old align = align ∨ old = some (smaller old align) := by
  cases old with
  | none => exact .inl rfl
  | some old =>
    rcases min_choice old align with left | right
    · exact .inr (congrArg some left.symm)
    · exact .inl right

theorem NotesOf.noteInstr {instr : Instr ι} (notes : NotesOf instrs minima) :
    NotesOf (instrs ++ [instr]) (noteInstr minima instr) := by
  cases instr with
  | other instr =>
    refine ⟨fun known => List.mem_append_left _ (notes.attained known), fun member => ?_⟩
    rcases List.mem_append.1 member with earlier | last
    · exact notes.le earlier
    · exact absurd (List.mem_singleton.1 last) (by simp only [reduceCtorEq, not_false_eq_true])
  | access newKind newBits newAlign =>
    constructor
    · intro kind bits least known
      rw [Asm.noteInstr, Function.update_apply] at known
      split at known
      · next same =>
          subst same
          rw [widths_add] at known
          split at known
          · next same =>
              subst same
              cases known
              rcases smaller_choice ((minima kind).widths bits) newAlign with new | old
              · rw [new]
                exact List.mem_append_right _ (List.mem_singleton_self _)
              · exact List.mem_append_left _ (notes.attained old)
          · exact List.mem_append_left _ (notes.attained known)
      · exact List.mem_append_left _ (notes.attained known)
    · intro kind bits align member
      rw [Asm.noteInstr, Function.update_apply]
      by_cases same : kind = newKind ∧ bits = newBits
      · obtain ⟨rfl, rfl⟩ := same
        rw [if_pos rfl, widths_add, if_pos rfl]
        refine ⟨_, rfl, ?_⟩
        rcases List.mem_append.1 member with earlier | last
        · obtain ⟨old, known, le⟩ := notes.le earlier
          rw [known]
          exact (min_le_left old newAlign).trans le
        · cases List.mem_singleton.1 last
          exact smaller_le _ _
      · have earlier : .access kind bits align ∈ instrs := by
          rcases List.mem_append.1 member with earlier | last
          · exact earlier
          · cases List.mem_singleton.1 last
            exact absurd ⟨rfl, rfl⟩ same
        obtain ⟨old, known, le⟩ := notes.le earlier
        refine ⟨old, ?_, le⟩
        split
        · next kinds =>
            subst kinds
            rw [widths_add, if_neg fun widths => same ⟨rfl, widths⟩]
            exact known
        · exact known

theorem noteBlock_notes (instrs : List (Instr ι)) : NotesOf instrs (noteBlock instrs) := by
  induction instrs using List.reverseRecOn with
  | nil =>
    constructor
    · intro kind bits least known
      exact absurd known (Option.some_ne_none least).symm
    · intro kind bits align member
      exact absurd member List.not_mem_nil
  | append_singleton instrs instr ih =>
    rw [noteBlock, List.foldl_append]
    exact ih.noteInstr

theorem raiseInstr_cases (notes : NotesOf instrs minima) (instr : Instr ι) :
    raiseInstr minima instr = instr ∨ ∃ kind bits align newAlign least,
        instr = .access kind bits align ∧
        raiseInstr minima instr = .access kind bits newAlign ∧
        align < newAlign ∧ newAlign ≤ least ∧ LeastAlign instrs kind bits least := by
  cases instr with
  | other instr => exact .inl rfl
  | access kind bits align =>
    simp only [raiseInstr]
    split
    · exact .inl rfl
    · next least known =>
        split
        · next raised =>
            exact .inr ⟨kind, bits, align, _, least, rfl, rfl, raised,
              (min_le_left _ _).trans (min_le_left _ _), notes.leastAlign known⟩
        · exact .inl rfl

theorem raiseInstr_self
    {instr : Instr ι} (member : instr ∈ instrs) : raiseInstr (noteBlock instrs) instr = instr := by
  rcases raiseInstr_cases (noteBlock_notes instrs) instr with
    same | ⟨kind, bits, align, newAlign, least, rfl, -, raised, le, leastAlign⟩
  · exact same
  · have := leastAlign.le align member
    omega

theorem raiseBlock_self (bb : BasicBlock ι) : raiseBlock (noteBlock bb.instrs) bb = bb := by
  have same : bb.instrs.map (raiseInstr (noteBlock bb.instrs)) = bb.instrs :=
    (List.map_congr_left fun _ member => raiseInstr_self member).trans (List.map_id' _)
  rw [raiseBlock, same]

end

section

variable {ι : Type u} {fn : Function ι} {minima : Access → Minima} {index other : Nat}

theorem Function.raise_block (fn : Function ι) (minima : Access → Minima) (index other : Nat) :
    (fn.raise minima index).block other =
      if index = other then raiseBlock minima (fn.block other) else fn.block other := by
  unfold Function.block Function.raise
  rw [List.getElem?_modify]
  cases fn.blocks[other]? with
  | none =>
    split
    · rfl
    · rfl
  | some bb =>
    split
    · rfl
    · rfl

theorem Function.raise_self (fn : Function ι) (index : Nat) :
    fn.raise (noteBlock (fn.block index).instrs) index = fn := by
  have blocks : fn.blocks.modify index (raiseBlock (noteBlock (fn.block index).instrs)) =
      fn.blocks := by
    refine List.ext_getElem? fun i => ?_
    rw [List.getElem?_modify]
    cases known : fn.blocks[i]? with
    | none =>
      split
      · rfl
      · rfl
    | some bb =>
      split
      · next same =>
          subst same
          have block : fn.block index = bb := by rw [Function.block, known, Option.getD_some]
          rw [block]
          exact congrArg some (raiseBlock_self bb)
      · rfl
  unfold Function.raise
  congr 1

theorem Function.mem_targets_lt
    {t : Nat} (target : t ∈ (fn.block index).targets) : t < fn.blocks.length := by
  unfold Function.block at target
  cases known : fn.blocks[index]? with
  | none => rw [known] at target; exact absurd target List.not_mem_nil
  | some bb => rw [known] at target; exact fn.inBounds bb (List.mem_of_getElem? known) t target

end

section

variable {ι : Type u} {src tgt : Function ι} {st next : State ι} {index i : Nat}

def sourceBlocks (src : Function ι) : List BlockRef :=
  (List.range src.blocks.length).map .src

theorem src_mem_sourceBlocks : .src i ∈ sourceBlocks src ↔ i < src.blocks.length := by
  rw [sourceBlocks, List.mem_map]
  constructor
  · rintro ⟨_, inside, same⟩
    cases same
    exact List.mem_range.1 inside
  · exact fun inside => ⟨i, List.mem_range.2 inside, rfl⟩

/-- The pairs that the loop forms: the one of the entries, and those of a source block with
itself. -/
def PairShape (src : Function ι) (pair : BlockRef × BlockRef) : Prop :=
  pair = (.src 0, .tgt 0) ∨ ∃ i < src.blocks.length, pair = (.src i, .src i)

def visit (st : State ι) (srcBb : BlockRef) (rest : List (BlockRef × BlockRef))
    (tgt : Function ι) : State ι where
  src := st.src
  tgt := tgt
  seen := srcBb :: st.seen
  worklist := rest ++ (st.targets srcBb).zip (st.targets srcBb)

theorem step_cases
    (shapes : ∀ pair ∈ st.worklist, PairShape st.src pair) (step : st.step = some next) :
    ∃ srcBb tgtBb rest, st.worklist = (srcBb, tgtBb) :: rest ∧
      (srcBb ∈ st.seen ∧ next = { st with worklist := rest } ∨
        srcBb ∉ st.seen ∧ (srcBb, tgtBb) = (.src 0, .tgt 0) ∧
          next = visit st srcBb rest (st.tgt.raise (noteBlock (st.src.block 0).instrs) 0) ∨
        srcBb ∉ st.seen ∧ (∃ i < st.src.blocks.length, srcBb = .src i) ∧
          next = visit st srcBb rest st.tgt) := by
  unfold State.step at step
  split at step
  · cases step
  · next srcBb tgtBb rest front =>
      have shape := shapes (srcBb, tgtBb) (by rw [front]; exact List.mem_cons_self)
      refine ⟨srcBb, tgtBb, rest, front, ?_⟩
      have result := (Option.some.inj step).symm
      unfold State.pairBlocks at result
      by_cases seen : srcBb ∈ st.seen
      · rw [if_pos seen] at result
        exact .inl ⟨seen, result⟩
      · rw [if_neg seen] at result
        rcases shape with entries | ⟨i, inside, same⟩
        · cases entries
          exact .inr (.inl ⟨seen, rfl, result⟩)
        · cases same
          refine .inr (.inr ⟨seen, ⟨i, inside, rfl⟩, result.trans ?_⟩)
          simp only [State.raise, State.block, Function.raise_self]
          rfl

/-- What holds in every round. -/
structure Invariant (src tgt : Function ι) (st : State ι) : Prop where
  source : st.src = src
  shapes : ∀ pair ∈ st.worklist, PairShape src pair
  target : ∀ index, (st.tgt.block index).targets = (tgt.block index).targets ∧
    List.Forall₂ (RaisedTo src tgt index) (tgt.block index).instrs (st.tgt.block index).instrs

theorem mem_targets_zip
    {pair : BlockRef × BlockRef} (member : pair ∈ (st.targets (.src i)).zip (st.targets (.src i))) :
    ∃ j < st.src.blocks.length, pair = (.src j, .src j) := by
  unfold State.targets at member
  rw [List.zip_map', List.mem_map] at member
  obtain ⟨j, target, rfl⟩ := member
  exact ⟨j, Function.mem_targets_lt target, rfl⟩

theorem RaisedTo.refl (src tgt : Function ι) (index : Nat) (instr : Instr ι) :
    RaisedTo src tgt index instr instr :=
  .inl rfl

theorem RaisedTo.raiseInstr {before after : Instr ι} {minima : Access → Minima}
    (raised : RaisedTo src tgt index before after) (notes : NotesOf (src.block i).instrs minima)
    (paired : Paired src tgt (.src i, .tgt index)) :
    RaisedTo src tgt index before (raiseInstr minima after) := by
  rcases raiseInstr_cases notes after with
    same | ⟨kind, bits, align, newAlign, least, rfl, new, grows, le, leastAlign⟩
  · rw [same]
    exact raised
  · rw [new]
    rcases raised with rfl | ⟨_, _, align', _, _, _, rfl, same, grows', -, -, -⟩
    · exact .inr ⟨kind, bits, align, newAlign, least, i, rfl, rfl, grows, le, paired, leastAlign⟩
    · cases same
      exact .inr ⟨kind, bits, align', newAlign, least, i, rfl, rfl, by omega, le, paired,
        leastAlign⟩

theorem invariant_start (src tgt : Function ι) : Invariant src tgt (start src tgt) := by
  refine ⟨rfl, fun pair member => .inl (List.mem_singleton.1 member), fun index => ⟨rfl, ?_⟩⟩
  exact List.forall₂_same.2 fun instr _ => .refl src tgt index instr

theorem Invariant.step (invariant : Invariant src tgt st) (reaches : Reaches src tgt st)
    (step : st.step = some next) : Invariant src tgt next := by
  obtain ⟨rfl, shapes, target⟩ := invariant
  have visited {srcBb tgtBb : BlockRef} {rest : List (BlockRef × BlockRef)} {i : Nat}
      (front : st.worklist = (srcBb, tgtBb) :: rest) (source : srcBb = .src i) :
      ∀ pair ∈ rest ++ (st.targets srcBb).zip (st.targets srcBb), PairShape st.src pair := by
    intro pair member
    rcases List.mem_append.1 member with earlier | new
    · exact shapes pair (by rw [front]; exact List.mem_cons_of_mem _ earlier)
    · rw [source] at new
      exact .inr (mem_targets_zip new)
  obtain ⟨srcBb, tgtBb, rest, front,
    ⟨-, rfl⟩ | ⟨-, entries, rfl⟩ | ⟨-, ⟨i, inside, source⟩, rfl⟩⟩ := step_cases shapes step
  · refine ⟨rfl, fun pair member => shapes pair ?_, target⟩
    rw [front]
    exact List.mem_cons_of_mem _ member
  · have paired : Paired st.src tgt (.src 0, .tgt 0) :=
      ⟨st, reaches, by rw [front, entries]; exact List.mem_cons_self⟩
    refine ⟨rfl, visited front (congrArg Prod.fst entries), fun index => ?_⟩
    obtain ⟨sameTargets, raised⟩ := target index
    simp only [visit, Function.raise_block]
    split
    · next same =>
        subst same
        refine ⟨sameTargets, List.forall₂_map_right_iff.2 (raised.imp fun before after once => ?_)⟩
        exact once.raiseInstr (noteBlock_notes _) paired
    · exact ⟨sameTargets, raised⟩
  · exact ⟨rfl, visited front source, target⟩

theorem Reaches.invariant (reaches : Reaches src tgt st) : Invariant src tgt st := by
  induction reaches with
  | start => exact invariant_start src tgt
  | step reaches step ih => exact ih.step reaches step

/-! ### The loop ends -/

open AliveNext.Lib

def sourceTargets (src : Function ι) : BlockRef → List BlockRef
  | .src i => (src.block i).targets.map .src
  | .tgt _ => []

def weight (st : State ι) : Nat :=
  unvisitedWeight (sourceTargets st.src) (sourceBlocks st.src) st.seen + st.worklist.length

theorem weight_step (shapes : ∀ pair ∈ st.worklist, PairShape st.src pair)
    (step : st.step = some next) : weight next < weight st := by
  have visited {srcBb tgtBb : BlockRef} {rest : List (BlockRef × BlockRef)} {i : Nat}
      (front : st.worklist = (srcBb, tgtBb) :: rest) (unseen : srcBb ∉ st.seen)
      (source : srcBb = .src i) (inside : i < st.src.blocks.length) (tgt : Function ι) :
      weight (visit st srcBb rest tgt) < weight st := by
    subst source
    have smaller : unvisitedWeight (sourceTargets st.src) (sourceBlocks st.src)
        (.src i :: st.seen) + (sourceTargets st.src (.src i)).length ≤
          unvisitedWeight (sourceTargets st.src) (sourceBlocks st.src) st.seen :=
      unvisitedWeight_visit (src_mem_sourceBlocks.2 inside) unseen
    unfold weight visit
    rw [front, List.length_append, List.length_zip, min_self, List.length_cons]
    change _ + (rest.length + (sourceTargets st.src (.src i)).length) < _
    dsimp only
    omega
  obtain ⟨srcBb, tgtBb, rest, front,
    ⟨-, rfl⟩ | ⟨unseen, entries, rfl⟩ | ⟨unseen, ⟨i, inside, source⟩, rfl⟩⟩ :=
      step_cases shapes step
  · unfold weight
    rw [front]
    exact Nat.add_lt_add_left (Nat.lt_succ_self _) _
  · exact visited front unseen (congrArg Prod.fst entries)
      (List.length_pos_iff_ne_nil.2 st.src.nonempty) _
  · exact visited front unseen source inside _

theorem run_ends (rounds : Nat) :
    ∀ st : State ι, Reaches src tgt st → weight st ≤ rounds → (st.run rounds).worklist = [] := by
  induction rounds with
  | zero =>
    intro st _ bound
    unfold weight at bound
    exact List.eq_nil_of_length_eq_zero (by simp only [State.run]; omega)
  | succ rounds ih =>
    intro st reaches bound
    obtain ⟨rfl, shapes, -⟩ := reaches.invariant
    unfold State.run
    cases step : st.step with
    | none =>
      unfold State.step at step
      split at step
      · next none => exact none
      · cases step
    | some next =>
      have smaller := weight_step shapes step
      exact ih next (reaches.step step) (by omega)

/-! ### The pairs -/

theorem start_step (src tgt : Function ι) : ∃ next, (start src tgt).step = some next ∧
      next.worklist = ((start src tgt).targets (.src 0)).zip ((start src tgt).targets (.src 0)) :=
  ⟨_, rfl, rfl⟩

theorem paired_of_no_targets {pair : BlockRef × BlockRef} (none : (src.block 0).targets = [])
    (paired : Paired src tgt pair) : pair = (.src 0, .tgt 0) := by
  have worklists : ∀ st, Reaches src tgt st → st = start src tgt ∨ st.worklist = [] := by
    intro st reaches
    induction reaches with
    | start => exact .inl rfl
    | @step st next _ step ih =>
      right
      rcases ih with rfl | empty
      · obtain ⟨_, same, worklist⟩ := start_step src tgt
        cases step.symm.trans same
        rw [worklist]
        change ((src.block 0).targets.map BlockRef.src).zip _ = []
        rw [none]
        rfl
      · unfold State.step at step
        rw [empty] at step
        cases step
  obtain ⟨st, reaches, member⟩ := paired
  rcases worklists st reaches with rfl | empty
  · exact List.mem_singleton.1 member
  · rw [empty] at member
    exact absurd member List.not_mem_nil

theorem paired_of_target
    {t : Nat} (target : t ∈ (src.block 0).targets) : Paired src tgt (.src t, .src t) := by
  obtain ⟨next, step, worklist⟩ := start_step src tgt
  refine ⟨next, .step .start step, ?_⟩
  rw [worklist]
  change _ ∈ ((src.block 0).targets.map BlockRef.src).zip ((src.block 0).targets.map BlockRef.src)
  rw [List.zip_map']
  exact List.mem_map.2 ⟨t, target, rfl⟩

/-- The loop ends, the source stays as it is and the accesses of the target are raised as they
should be; but a source block is paired with a target block only if the entry is the only source
block that the loop comes to. -/
theorem asmAlign_aligns_iff (src tgt : Function ι) :
    Aligns src tgt ↔ (src.block 0).targets = [] := by
  constructor
  · intro aligns
    refine List.eq_nil_iff_forall_not_mem.2 fun t target => ?_
    obtain ⟨i, j, same, -⟩ := aligns.pairs _ (paired_of_target target)
    cases same
  · intro none
    refine ⟨fun pair paired => ?_, fun st reaches => reaches.invariant.source,
      fun st reaches => reaches.invariant.target, weight (start src tgt),
      run_ends _ _ .start le_rfl⟩
    exact ⟨0, 0, paired_of_no_targets none paired, List.length_pos_iff_ne_nil.2 src.nonempty,
      List.length_pos_iff_ne_nil.2 tgt.nonempty⟩

end

/-- Two blocks, the first of which jumps to the second. -/
def twoBlocks (align : Nat) : Function Unit where
  blocks := [⟨[.other ()], [1]⟩, ⟨[.access .load 32 align], []⟩]
  nonempty := List.cons_ne_nil _ _
  inBounds := by
    intro bb member t target
    rcases List.mem_cons.1 member with rfl | member
    · exact List.mem_singleton.1 target ▸ Nat.one_lt_two
    · cases List.mem_singleton.1 member
      exact absurd target List.not_mem_nil

/-- The second blocks are not paired: the source block is paired with itself. -/
theorem asmAlign_pairs_source : ¬∀ src tgt : Function Unit, Aligns src tgt := by
  intro claim
  have member : 1 ∈ ((twoBlocks 4).block 0).targets := by decide
  obtain ⟨i, j, same, -⟩ := (claim (twoBlocks 4) (twoBlocks 1)).pairs _ (paired_of_target member)
  cases same

end AliveNext.Tools.Asm
