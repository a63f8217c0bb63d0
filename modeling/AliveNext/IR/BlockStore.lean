import AliveNext.IR.StoredSound

/-!
# The value of a block

`Memory::store` on one block. The value of a block is an array or, if all of its bytes
are the same term, one byte. A store that fills the block starts from a default, and so
does one that initializes a global.
-/

namespace AliveNext.IR.Stored

variable {Ω T V Byte : Type} {w : Nat}

/-- `MemBlock::val`. -/
inductive BlockVal (Ω Byte : Type) (w : Nat) where
  | bv (byte : Ω → Byte)
  | array (bytes : Content Ω Byte w)

namespace BlockVal

/-- `raw_load`. -/
def content : BlockVal Ω Byte w → Content Ω Byte w
  | bv byte => fun ω _ => byte ω
  | array bytes => bytes

def mkConstArray (byte : Ω → Byte) : Content Ω Byte w := fun ω _ => byte ω

def mkBlockIf (cond : Cond Ω) (thn els : BlockVal Ω Byte w) : BlockVal Ω Byte w :=
  if cond.isTrue then thn
  else if cond.isFalse then els
  else match thn, els with
    | bv a, bv b => bv fun ω => if cond.holds ω then a ω else b ω
    | bv a, array b => array fun ω => if cond.holds ω then mkConstArray a ω else b ω
    | array a, bv b => array fun ω => if cond.holds ω then a ω else mkConstArray b ω
    | array a, array b => array fun ω => if cond.holds ω then a ω else b ω

theorem content_mkBlockIf (cond : Cond Ω) (thn els : BlockVal Ω Byte w) :
    (mkBlockIf cond thn els).content = Stored.mkBlockIf cond thn.content els.content := by
  unfold mkBlockIf Stored.mkBlockIf
  split
  · rfl
  · split
    · rfl
    · cases thn with
      | bv a =>
        cases els with
        | bv b =>
          funext ω offset
          by_cases holds : cond.holds ω = true
          · simp only [content, if_pos holds]
          · simp only [content, if_neg holds]
        | array b => rfl
      | array a =>
        cases els with
        | bv b => rfl
        | array b => rfl

section

variable [DecidableEq V] (terms : Terms Ω T V Byte w) (cfg : Config)

def mkStore (mem : BlockVal Ω Byte w) (offset : T) (val : V) : BlockVal Ω Byte w :=
  let mem := match mem with
    | bv byte => mkConstArray byte
    | array bytes => bytes
  array fun ω => Function.update (mem ω) (terms.eval offset ω) (terms.byte val ω)

/-- The loop over the data; `skip` is the default that a full write starts from. -/
def storeData (offset : T) (skip : Option V) :
    List (Nat × V) → BlockVal Ω Byte w → BlockVal Ω Byte w
  | [], mem => mem
  | (idx, val) :: data, mem =>
    if skip = some val then storeData offset skip data mem
    else storeData offset skip data (mem.mkStore terms (terms.add offset (idx / cfg.unit)) val)

/-- The function that `Memory::store` passes to `access`; `init` is the initialization
phase. -/
def store (poison : Byte) (init : Bool) (access : Access Ω T) (data : List (Nat × V))
    (old : BlockVal Ω Byte w) : BlockVal Ω Byte w :=
  match data with
  | [] => old
  | (_, first) :: _ =>
    let fullWrite := access.blockSize = some (data.length * cfg.unit)
    let mem :=
      if fullWrite ∨ init then
        if data.length = 1 then bv (terms.byte first)
        else if fullWrite then bv (terms.byte first)
        else bv fun _ => poison
      else old
    let skip := if fullWrite then some first else none
    mkBlockIf access.cond (storeData terms cfg access.offset skip data mem) old

variable {terms} {cfg}

theorem content_storeData
    {offset : T} {skip : Option V} {data : List (Nat × V)} {mem : BlockVal Ω Byte w} :
    (storeData terms cfg offset skip data mem).content =
      storeBytes terms cfg offset skip data mem.content := by
  induction data generalizing mem with
  | nil => rfl
  | cons d data ih =>
    rw [storeData, storeBytes]
    split
    · exact ih
    · rw [ih]
      cases mem with
      | bv byte => rfl
      | array bytes => rfl

theorem content_store
    {poison : Byte} {access : Access Ω T} {data : List (Nat × V)} {old : BlockVal Ω Byte w} :
    (old.store terms cfg poison false access data).content =
      storedVal terms cfg access data old.content := by
  cases data with
  | nil => rfl
  | cons d data =>
    unfold store storedVal
    dsimp only
    rw [content_mkBlockIf, content_storeData]
    by_cases full : access.blockSize = some ((d :: data).length * cfg.unit)
    · rw [if_pos full, if_pos (.inl full), if_pos full]
      split <;> rfl
    · rw [if_neg full, if_neg (not_or.2 ⟨full, Bool.false_ne_true⟩), if_neg full]

end

section

variable {terms : Terms Ω T V Byte w} {cfg : Config} {ω : Ω}

def place (terms : Terms Ω T V Byte w) (cfg : Config) (start : T) (idx : Nat) (ω : Ω) : BitVec w :=
  terms.eval (terms.add start (idx / cfg.unit)) ω

variable {d : Nat × V} {offset : BitVec w}

theorem storeBytes_get [DecidableEq V] {start : T} {skip : Option V} {data : List (Nat × V)}
    {mem : Content Ω Byte w} (apart : (data.map fun d => place terms cfg start d.1 ω).Nodup)
    (member : d ∈ data)
    (default : skip = some d.2 → mem ω (place terms cfg start d.1 ω) = terms.byte d.2 ω) :
    storeBytes terms cfg start skip data mem ω (place terms cfg start d.1 ω) =
      terms.byte d.2 ω := by
  induction data generalizing mem with
  | nil => cases member
  | cons e data ih =>
    rw [List.map_cons, List.nodup_cons] at apart
    rw [storeBytes]
    rcases List.mem_cons.1 member with rfl | later
    · have others : ∀ e ∈ data, place terms cfg start e.1 ω ≠ place terms cfg start d.1 ω := by
        intro e inside same
        exact apart.1 (same ▸ List.mem_map_of_mem inside)
      split
      · next skipped =>
        rw [storeBytes_other others]
        exact default skipped
      · rw [storeBytes_other others]
        exact Function.update_self _ _ _
    · have other : place terms cfg start d.1 ω ≠ place terms cfg start e.1 ω := by
        intro same
        exact apart.1 (same ▸ List.mem_map_of_mem later)
      split
      · exact ih apart.2 later default
      · refine ih apart.2 later fun skipped => ?_
        rw [← default skipped]
        exact Function.update_of_ne other _ _

/-- What the callers of a store promise in a model: the indices are those of the bytes of a
value, a known size is the size of the block, and the store is in bounds. -/
structure Promised (terms : Terms Ω T V Byte w) (cfg : Config) (access : Access Ω T)
    (data : List (Nat × V)) (size : Nat) (ω : Ω) : Prop where
  units : (data.map fun d => d.1 / cfg.unit).Perm (List.range data.length)
  known : ∀ n, access.blockSize = some n → size = n
  bounds : access.cond.holds ω = true →
    ((terms.eval access.offset ω).toNat + data.length) * cfg.unit ≤ size
  addressed : size ≤ 2 ^ w * cfg.unit

def Inside (cfg : Config) (size : Nat) (offset : BitVec w) : Prop :=
  (offset.toNat + 1) * cfg.unit ≤ size

def Covered (terms : Terms Ω T V Byte w) (cfg : Config) (access : Access Ω T)
    (data : List (Nat × V)) (ω : Ω) (offset : BitVec w) : Prop :=
  ∃ d ∈ data, place terms cfg access.offset d.1 ω = offset

variable {access : Access Ω T} {data : List (Nat × V)} {size : Nat}

section

variable (promised : Promised terms cfg access data size ω)

include promised

theorem Promised.apart (denotes : access.cond.holds ω = true) :
    (data.map fun d => place terms cfg access.offset d.1 ω).Nodup := by
  have room : (terms.eval access.offset ω).toNat + data.length ≤ 2 ^ w :=
    Nat.le_of_mul_le_mul_right (Nat.le_trans (promised.bounds denotes) promised.addressed)
      cfg.unit_positive
  have indices : (data.map fun d => d.1 / cfg.unit).Nodup :=
    promised.units.nodup_iff.2 List.nodup_range
  have below : ∀ d ∈ data, d.1 / cfg.unit < data.length := by
    intro d member
    exact List.mem_range.1 (promised.units.subset (List.mem_map_of_mem member))
  refine List.Nodup.map_on ?_ (List.Nodup.of_map _ indices)
  intro d d_mem e e_mem same
  refine List.inj_on_of_nodup_map indices d_mem e_mem ?_
  unfold place at same
  rw [terms.eval_add, terms.eval_add] at same
  have number := congrArg BitVec.toNat (add_left_cancel same)
  rw [BitVec.toNat_ofNat, BitVec.toNat_ofNat] at number
  have d_lt := below d d_mem
  have e_lt := below e e_mem
  rwa [Nat.mod_eq_of_lt (by omega), Nat.mod_eq_of_lt (by omega)] at number

theorem Promised.covers_first (start : (terms.eval access.offset ω).toNat = 0)
    (below : offset.toNat < data.length) : Covered terms cfg access data ω offset := by
  have index : offset.toNat ∈ data.map fun d => d.1 / cfg.unit :=
    promised.units.symm.subset (List.mem_range.2 below)
  obtain ⟨d, member, unit_eq⟩ := List.mem_map.1 index
  refine ⟨d, member, ?_⟩
  unfold place
  rw [terms.eval_add, unit_eq]
  apply BitVec.eq_of_toNat_eq
  rw [BitVec.toNat_add, BitVec.ofNat_toNat, BitVec.setWidth_eq, start, Nat.zero_add,
    Nat.mod_eq_of_lt offset.isLt]

theorem Promised.covers (denotes : access.cond.holds ω = true) (inside : Inside cfg size offset)
    (full : size < (data.length + 1) * cfg.unit) : Covered terms cfg access data ω offset := by
  have start := Nat.lt_of_mul_lt_mul_right (Nat.lt_of_le_of_lt (promised.bounds denotes) full)
  have below := Nat.lt_of_mul_lt_mul_right (Nat.lt_of_le_of_lt inside full)
  exact promised.covers_first (by omega) (by omega)

theorem exists_uncovered (single : data = [d]) (large : 2 * cfg.unit ≤ size) :
    ∃ offset : BitVec w, Inside cfg size offset ∧ ¬Covered terms cfg access data ω offset := by
  have two : 1 < 2 ^ w :=
    Nat.le_of_mul_le_mul_right (Nat.le_trans large promised.addressed) cfg.unit_positive
  have small : ∀ n < 2, Inside cfg size (BitVec.ofNat w n) := by
    intro n below
    unfold Inside
    rw [BitVec.toNat_ofNat, Nat.mod_eq_of_lt (by omega)]
    exact Nat.le_trans (Nat.mul_le_mul_right _ below) large
  have different : BitVec.ofNat w 0 ≠ BitVec.ofNat w 1 := by
    intro same
    have number := congrArg BitVec.toNat same
    rw [BitVec.toNat_ofNat, BitVec.toNat_ofNat, Nat.mod_eq_of_lt two, Nat.zero_mod] at number
    cases number
  subst single
  by_cases first : place terms cfg access.offset d.1 ω = BitVec.ofNat w 0
  · refine ⟨BitVec.ofNat w 1, small 1 (by decide), ?_⟩
    rintro ⟨e, member, same⟩
    obtain rfl := List.mem_singleton.1 member
    exact different (first.symm.trans same)
  · refine ⟨BitVec.ofNat w 0, small 0 (by decide), ?_⟩
    rintro ⟨e, member, same⟩
    obtain rfl := List.mem_singleton.1 member
    exact first same

end

def leftover (terms : Terms Ω T V Byte w) (ω : Ω) (poison old : Byte) : Bool → List (Nat × V) → Byte
  | true, [d] => terms.byte d.2 ω
  | true, _ :: _ :: _ => poison
  | _, _ => old

variable [DecidableEq V] {poison : Byte} {init : Bool} {old : BlockVal Ω Byte w}

theorem content_store_other (other : access.cond.holds ω = false) :
    (old.store terms cfg poison init access data).content ω = old.content ω := by
  cases data with
  | nil => rfl
  | cons first rest =>
    unfold store
    dsimp only
    rw [content_mkBlockIf, mkBlockIf_eq]
    exact if_neg (by rw [other]; exact Bool.false_ne_true)

theorem content_store_given (promised : Promised terms cfg access data size ω)
    (denotes : access.cond.holds ω = true) (member : d ∈ data) :
    (old.store terms cfg poison init access data).content ω (place terms cfg access.offset d.1 ω) =
      terms.byte d.2 ω := by
  have apart := promised.apart denotes
  cases data with
  | nil => cases member
  | cons first rest =>
    unfold store
    dsimp only
    rw [content_mkBlockIf, mkBlockIf_eq, content_storeData]
    dsimp only
    rw [if_pos denotes]
    refine storeBytes_get apart member fun skipped => ?_
    by_cases full : access.blockSize = some ((first :: rest).length * cfg.unit)
    · rw [if_pos full] at skipped
      rw [if_pos (.inl full), if_pos full, ite_self, Option.some.inj skipped]
      rfl
    · rw [if_neg full] at skipped
      cases skipped

theorem content_store_uncovered (promised : Promised terms cfg access data size ω)
    (denotes : access.cond.holds ω = true) (inside : Inside cfg size offset)
    (uncovered : ¬Covered terms cfg access data ω offset) :
    (old.store terms cfg poison init access data).content ω offset =
      leftover terms ω poison (old.content ω offset) init data := by
  have others : ∀ d ∈ data, place terms cfg access.offset d.1 ω ≠ offset :=
    fun d member same => uncovered ⟨d, member, same⟩
  cases data with
  | nil => cases init <;> rfl
  | cons first rest =>
    have partly : ¬access.blockSize = some ((first :: rest).length * cfg.unit) := by
      intro full
      refine uncovered (promised.covers denotes inside ?_)
      rw [promised.known _ full]
      exact Nat.mul_lt_mul_of_pos_right (Nat.lt_succ_self _) cfg.unit_positive
    unfold store
    dsimp only
    rw [content_mkBlockIf, mkBlockIf_eq, content_storeData]
    dsimp only
    rw [if_pos denotes, storeBytes_other others]
    cases init with
    | false =>
      rw [if_neg (not_or.2 ⟨partly, Bool.false_ne_true⟩)]
      rfl
    | true =>
      rw [if_pos (.inr rfl), if_neg partly]
      cases rest with
      | nil => rfl
      | cons second rest =>
        rw [if_neg (by simp)]
        rfl

/-- What the value of a block should be after a store. -/
structure StoresBytes (terms : Terms Ω T V Byte w) (cfg : Config) (isPoison : Byte → Prop)
    (init : Bool) (access : Access Ω T) (data : List (Nat × V)) (size : Nat) (ω : Ω)
    (old new : BitVec w → Byte) : Prop where
  other : access.cond.holds ω = false → new = old
  given : access.cond.holds ω = true → ∀ d ∈ data,
    new (place terms cfg access.offset d.1 ω) = terms.byte d.2 ω
  kept : access.cond.holds ω = true → init = false → ∀ offset, Inside cfg size offset →
    ¬Covered terms cfg access data ω offset → new offset = old offset
  poison : access.cond.holds ω = true → init = true → ∀ offset, Inside cfg size offset →
    ¬Covered terms cfg access data ω offset → isPoison (new offset)

/-- A store leaves what it should in the block, unless it initializes a block of more bytes
with one byte that is not poison, or with none where there was something. -/
theorem store_right_iff
    (init : Bool) (old : BlockVal Ω Byte w) (isPoison : Byte → Prop) (poisonous : isPoison poison)
    (promised : Promised terms cfg access data size ω) :
    StoresBytes terms cfg isPoison init access data size ω (old.content ω)
        ((old.store terms cfg poison init access data).content ω) ↔
      (access.cond.holds ω = true → init = true →
        (data = [] → ∀ offset, Inside cfg size offset → isPoison (old.content ω offset)) ∧
        ∀ d, data = [d] → size < 2 * cfg.unit ∨ isPoison (terms.byte d.2 ω)) := by
  constructor
  · intro right denotes first
    have poison := right.poison denotes first
    constructor
    · rintro rfl offset inside
      exact poison offset inside fun ⟨d, member, _⟩ => nomatch member
    · intro d single
      by_cases small : size < 2 * cfg.unit
      · exact .inl small
      · obtain ⟨offset, inside, uncovered⟩ := exists_uncovered promised single (not_lt.1 small)
        have read := poison offset inside uncovered
        rw [content_store_uncovered promised denotes inside uncovered, first] at read
        subst single
        exact .inr read
  · intro condition
    refine ⟨content_store_other,
      fun denotes d member => content_store_given promised denotes member,
      ?_, ?_⟩
    · intro denotes later offset inside uncovered
      rw [content_store_uncovered promised denotes inside uncovered, later]
      rfl
    · intro denotes first offset inside uncovered
      have ⟨empty, single⟩ := condition denotes first
      rw [content_store_uncovered promised denotes inside uncovered, first]
      cases data with
      | nil => exact empty rfl offset inside
      | cons d rest =>
        cases rest with
        | nil =>
          exact (single d rfl).resolve_left fun small =>
            uncovered (promised.covers denotes inside small)
        | cons second rest => exact poisonous

end

def initGlobal (data : List (Nat × Bool)) : BlockVal Bool Bool 8 :=
  store constantTerms threeBlocks false true ⟨false, 1, Cond.constant Bool true, 0, some 4⟩ data
    (bv fun _ => true)

theorem initGlobal_promised {data : List (Nat × Bool)}
    (units : data.map Prod.fst = List.range data.length) (short : data.length ≤ 4) (ω : Bool) :
    Promised constantTerms threeBlocks ⟨false, 1, Cond.constant Bool true, 0, some 4⟩ data 4 ω where
  units := by
    have same : data.map (fun d => d.1 / threeBlocks.unit) = data.map Prod.fst :=
      List.map_congr_left fun d _ => Nat.div_one d.1
    rw [same, units]
  known _ known := Option.some.inj known
  bounds _ := by
    change (0 + data.length) * 1 ≤ 4
    omega
  addressed := by decide

theorem store_right_twoBytes :
    (initGlobal [(0, true), (1, true)]).content true 3 = false := by
  have promised : Promised constantTerms threeBlocks _ [(0, true), (1, true)] 4 true :=
    initGlobal_promised rfl (by decide) true
  have right := (store_right_iff true (bv fun _ => true) (· = false) rfl promised).2 fun _ _ =>
    ⟨fun empty => absurd empty (List.cons_ne_nil _ _), fun _ single => by cases single⟩
  refine right.poison rfl rfl 3 (by unfold Inside; decide) ?_
  rintro ⟨d, member, same⟩
  rcases List.mem_pair.1 member with rfl | rfl
  · exact absurd same (by decide)
  · exact absurd same (by decide)

/-- The rest of a global that is initialized with one byte is that byte. -/
theorem store_of_oneByte :
    ¬∀ (access : Access Bool (BitVec 8)) (data : List (Nat × Bool)) (size : Nat) (ω : Bool)
      (old : BlockVal Bool Bool 8),
      Promised constantTerms threeBlocks access data size ω →
      StoresBytes constantTerms threeBlocks (· = false) true access data size ω (old.content ω)
        ((old.store constantTerms threeBlocks false true access data).content ω) := by
  intro claim
  have read := (claim _ [(0, true)] 4 true (bv fun _ => true)
    (initGlobal_promised rfl (by decide) true)).poison rfl rfl 3 (by unfold Inside; decide) (by
      rintro ⟨d, member, same⟩
      obtain rfl := List.mem_singleton.1 member
      exact absurd same (by decide))
  exact absurd read (by decide)

end BlockVal

end AliveNext.IR.Stored
