import AliveNext.IR.ValueFacts

/-!
# Stores and loads of bytes

A store of a value writes each of its bytes at an offset of its own, so all of
them are there afterwards, and the load of one part of the value reads the bytes
of that part in the order in which they were made.
-/

namespace AliveNext.IR

open TypedByte

variable {p : Params}

def unit (p : Params) : Nat :=
  p.bitsByte / 8

structure Whole (p : Params) : Prop where
  positive : 0 < unit p
  bitsByte_eq : p.bitsByte = 8 * unit p

/-- The offsets are different units between two bounds. -/
structure Spread (p : Params) (low high : Nat) (data : List (Nat × Bits)) : Prop where
  nodup : (data.map Prod.fst).Nodup
  aligned : ∀ d ∈ data, unit p ∣ d.1
  lower : ∀ d ∈ data, low ≤ d.1
  upper : ∀ d ∈ data, d.1 < high

theorem Spread.nil (p : Params) (low high : Nat) : Spread p low high [] where
  nodup := List.nodup_nil
  aligned := nofun
  lower := nofun
  upper := nofun

variable {low high count i offset base : Nat} {skip : Option Bits} {blk : MemBlock}
  {a b data : List (Nat × Bits)} {mayBeZero : Bits → Bool} {full : Bool} {d : Nat × Bits}

theorem Spread.append {middle : Nat} {left right : List (Nat × Bits)}
    (lower_part : Spread p low middle left) (upper_part : Spread p middle high right)
    (low_le : low ≤ middle) (le_high : middle ≤ high) :
    Spread p low high (left ++ right) where
  nodup := by
    rw [List.map_append]
    refine List.nodup_append.2 ⟨lower_part.nodup, upper_part.nodup, ?_⟩
    intro a in_left b in_right same
    obtain ⟨d, d_mem, rfl⟩ := List.mem_map.1 in_left
    obtain ⟨e, e_mem, rfl⟩ := List.mem_map.1 in_right
    have below := lower_part.upper d d_mem
    have above := upper_part.lower e e_mem
    omega
  aligned := by
    intro d member
    rcases List.mem_append.1 member with member | member
    · exact lower_part.aligned d member
    · exact upper_part.aligned d member
  lower := by
    intro d member
    rcases List.mem_append.1 member with member | member
    · exact lower_part.lower d member
    · exact Nat.le_trans low_le (upper_part.lower d member)
  upper := by
    intro d member
    rcases List.mem_append.1 member with member | member
    · exact Nat.lt_of_lt_of_le (lower_part.upper d member) le_high
    · exact upper_part.upper d member

/-- The place of byte `i` of `count`. -/
def bytePlace (p : Params) (count i : Nat) : Nat :=
  if p.littleEndian then i else count - i - 1

theorem bytePlace_lt (in_range : i < count) : bytePlace p count i < count := by
  unfold bytePlace
  split <;> omega

theorem bytePlace_inj {j : Nat} (i_lt : i < count) (j_lt : j < count)
    (same : bytePlace p count i = bytePlace p count j) : i = j := by
  unfold bytePlace at same
  split at same <;> omega

theorem placeBytes_eq (p : Params) (offset : Nat) (bytes : List Bits) : placeBytes p offset bytes =
      bytes.zipIdx.map fun b => (offset + bytePlace p bytes.length b.2 * unit p, b.1) :=
  rfl

theorem placeBytes_spread (whole : Whole p) (aligned : unit p ∣ offset) (bytes : List Bits) :
    Spread p offset (offset + bytes.length * unit p) (placeBytes p offset bytes) := by
  have members : ∀ d ∈ placeBytes p offset bytes,
      ∃ i < bytes.length, d.1 = offset + bytePlace p bytes.length i * unit p := by
    intro d member
    rw [placeBytes_eq] at member
    obtain ⟨⟨b, i⟩, indexed, rfl⟩ := List.mem_map.1 member
    exact ⟨i, (List.getElem?_eq_some_iff.1 (List.mem_zipIdx_iff_getElem?.1 indexed)).1, rfl⟩
  refine ⟨?_, ?_, ?_, ?_⟩
  · have offsets : (placeBytes p offset bytes).map Prod.fst = (List.range bytes.length).map fun i =>
          offset + bytePlace p bytes.length i * unit p := by
      have indices : bytes.zipIdx.map Prod.snd = List.range bytes.length := by
        rw [List.zipIdx_map_snd, List.range_eq_range']
      rw [placeBytes_eq, List.map_map, ← indices, List.map_map]
      rfl
    rw [offsets]
    refine List.Nodup.map_on ?_ List.nodup_range
    intro i i_mem j j_mem same
    refine bytePlace_inj (p := p) (List.mem_range.1 i_mem) (List.mem_range.1 j_mem) ?_
    exact Nat.eq_of_mul_eq_mul_right whole.positive (by omega)
  · intro d member
    obtain ⟨i, -, place⟩ := members d member
    rw [place]
    exact Nat.dvd_add aligned (Nat.dvd_mul_left _ _)
  · intro d member
    obtain ⟨i, -, place⟩ := members d member
    omega
  · intro d member
    obtain ⟨i, in_range, place⟩ := members d member
    rw [place]
    exact Nat.add_lt_add_left (Nat.mul_lt_mul_of_pos_right (bytePlace_lt in_range) whole.positive) _

theorem writeAll_other {place : Nat} : ∀ {data : List (Nat × Bits)} {mem : Nat → Bits},
      (∀ d ∈ data, offset / unit p + d.1 / unit p ≠ place) →
      writeAll p offset skip data mem place = mem place
  | [], _, _ => rfl
  | (idx, byte) :: data, mem, apart => by
    have rest : ∀ d ∈ data, offset / unit p + d.1 / unit p ≠ place := fun d member =>
      apart d (List.mem_cons_of_mem _ member)
    have head := apart _ List.mem_cons_self
    rw [writeAll]
    split
    · exact writeAll_other rest
    · rw [writeAll_other rest]
      exact Function.update_of_ne (Ne.symm head) _ _

theorem writeAll_get : ∀ {data : List (Nat × Bits)} {mem : Nat → Bits},
      (data.map Prod.fst).Nodup → (∀ d ∈ data, unit p ∣ d.1) →
      ∀ d ∈ data, (skip = some d.2 → mem (offset / unit p + d.1 / unit p) = d.2) →
      writeAll p offset skip data mem (offset / unit p + d.1 / unit p) = d.2
  | [], _, _, _, d, member, _ => absurd member List.not_mem_nil
  | (idx, byte) :: data, mem, nodup, aligned, d, member, default => by
    rw [List.map_cons, List.nodup_cons] at nodup
    have aligned_rest : ∀ d ∈ data, unit p ∣ d.1 := fun d member =>
      aligned d (List.mem_cons_of_mem _ member)
    have apart : ∀ e ∈ data, e.1 / unit p ≠ idx / unit p := by
      intro e e_mem same
      have same : e.1 = idx :=
        Nat.div_left_inj (aligned_rest e e_mem) (aligned _ List.mem_cons_self) |>.1 same
      exact nodup.1 (same ▸ List.mem_map.2 ⟨e, e_mem, rfl⟩)
    rw [writeAll]
    rcases List.mem_cons.1 member with rfl | member
    · have apart_place : ∀ e ∈ data,
          offset / unit p + e.1 / unit p ≠ offset / unit p + idx / unit p := by
        intro e e_mem same
        exact apart e e_mem (Nat.add_left_cancel same)
      split
      · rename_i skipped
        rw [writeAll_other apart_place]
        exact default skipped
      · rw [writeAll_other apart_place]
        exact Function.update_self _ _ _
    · split
      · exact writeAll_get nodup.2 aligned_rest d member default
      · refine writeAll_get nodup.2 aligned_rest d member ?_
        intro skipped
        rw [← default skipped]
        refine Function.update_of_ne ?_ _ _
        intro same
        exact apart d member (Nat.add_left_cancel same)

structure Stored (p : Params) (blk : MemBlock) (base : Nat) (data : List (Nat × Bits)) : Prop where
  value : ∀ d ∈ data, blk.val (base / unit p + d.1 / unit p) = d.2
  int : ∀ d ∈ data, byteIsPtr p d.2 = false → blk.type.int = true
  ptr : ∀ d ∈ data, byteIsPtr p d.2 = true → blk.type.ptr = true

theorem Stored.left (stored : Stored p blk base (a ++ b)) : Stored p blk base a where
  value d member := stored.value d (List.mem_append_left _ member)
  int d member := stored.int d (List.mem_append_left _ member)
  ptr d member := stored.ptr d (List.mem_append_left _ member)

theorem Stored.right (stored : Stored p blk base (a ++ b)) : Stored p blk base b where
  value d member := stored.value d (List.mem_append_right _ member)
  int d member := stored.int d (List.mem_append_right _ member)
  ptr d member := stored.ptr d (List.mem_append_right _ member)

theorem dataType_int (member : d ∈ data) (kind : byteIsPtr p d.2 = false) :
    (dataType p mayBeZero data full).int = true :=
  List.any_eq_true.2 ⟨d, member, by rw [kind]; rfl⟩

theorem dataType_ptr (member : d ∈ data) (kind : byteIsPtr p d.2 = true) :
    (dataType p mayBeZero data full).ptr = true := by
  unfold dataType
  rw [Bool.or_eq_true]
  exact .inl (List.any_eq_true.2 ⟨d, member, kind⟩)

/-- `Memory::store` puts all bytes into the block. -/
theorem store_stored (spread : Spread p low high data)
    (mayBeZero : Bits → Bool) (size : Option Nat) (blk : MemBlock) (offset : Nat) :
    Stored p (blk.store p mayBeZero size offset data) offset data := by
  cases data with
  | nil => exact ⟨nofun, nofun, nofun⟩
  | cons first rest =>
    obtain ⟨idx, byte⟩ := first
    unfold MemBlock.store
    simp only
    split
    · refine ⟨?_, fun d member => dataType_int member, fun d member => dataType_ptr member⟩
      intro d member
      refine writeAll_get spread.nodup spread.aligned d member ?_
      intro skipped
      exact Option.some.inj skipped
    · refine ⟨?_, ?_, ?_⟩
      · intro d member
        show writeAll p offset none _ _ _ = _
        refine writeAll_get spread.nodup spread.aligned d member ?_
        intro skipped
        cases skipped
      · intro d member kind
        rw [Bool.or_eq_true]
        exact .inr (dataType_int member kind)
      · intro d member kind
        rw [Bool.or_eq_true]
        exact .inr (dataType_ptr member kind)

theorem load_placed (whole : Whole p) {bytes : List Bits}
    {size : Option Nat} (base_aligned : unit p ∣ base) (aligned : unit p ∣ offset)
    (stored : Stored p blk base (placeBytes p offset bytes))
    (fits : ∀ s, size = some s → base + offset + bytes.length * unit p ≤ s) :
    blk.load p size (base + offset) (bytes.length * unit p) = bytes.map fun b => ⟨b, blk.type⟩ := by
  have count : bytes.length * unit p / unit p = bytes.length :=
    Nat.mul_div_cancel _ whole.positive
  have start : (if size = some (bytes.length * unit p) then 0 else (base + offset) / unit p) =
      base / unit p + offset / unit p := by
    rw [← Nat.add_div_of_dvd_right base_aligned]
    split
    · rename_i exact_size
      have := fits _ exact_size
      have zero : base + offset = 0 := by omega
      rw [zero, Nat.zero_div]
    · rfl
  have load_eq : blk.load p size (base + offset) (bytes.length * unit p) =
      (List.range bytes.length).map fun i =>
        ⟨blk.val (base / unit p + offset / unit p + bytePlace p bytes.length i), blk.type⟩ := by
    rw [← start]
    unfold MemBlock.load
    rw [← unit, count]
    rfl
  rw [load_eq]
  refine List.ext_getElem (by simp) ?_
  intro i i_lt i_lt'
  rw [List.length_map] at i_lt'
  have here : (offset + bytePlace p bytes.length i * unit p, bytes[i]) ∈
      placeBytes p offset bytes := by
    rw [placeBytes_eq]
    exact List.mem_map.2 ⟨(bytes[i], i), List.mem_zipIdx_iff_getElem?.2
      (List.getElem?_eq_getElem i_lt'), rfl⟩
  have value := stored.value _ here
  rw [Nat.add_div_of_dvd_right aligned, Nat.mul_div_cancel _ whole.positive,
    ← Nat.add_assoc] at value
  simp only [List.getElem_map, List.getElem_range, value]

end AliveNext.IR
