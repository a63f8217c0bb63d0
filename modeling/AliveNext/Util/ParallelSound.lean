import AliveNext.Util.Parallel

/-!
# Parallel output equals sequential output

Every state of every run is consistent: the used slots are wired to the
children that can still send, and the output emitted so far together with the
pending text and the unread pipes makes up the sequential output.
-/

namespace AliveNext.Util.Parallel

open LLVM (Text)

namespace StringStream

structure Holds (s : StringStream) (text : Text) : Prop where
  good : s.eof = false
  bounded : s.pos ≤ s.text.length
  unread_eq : s.unread = text

variable {s : StringStream} {chars rest : Text}

theorem Holds.write {text : Text} (holds : s.Holds text) (more : Text) :
    (s.write more).Holds (text ++ more) := by
  have kept := holds.unread_eq
  unfold unread at kept
  unfold StringStream.write
  rw [if_neg (by simp [holds.good])]
  refine ⟨holds.good, ?_, ?_⟩
  · simpa using Nat.le_trans holds.bounded (Nat.le_add_right _ _)
  · simp [unread, List.drop_append_of_le_length holds.bounded, kept]

theorem Holds.getline_end (holds : s.Holds []) : s.getline = (none, { s with eof := true }) := by
  unfold getline
  rw [if_neg (by simp [holds.good]), if_pos holds.unread_eq]

theorem Holds.clear_end (holds : s.Holds []) : (clear { s with eof := true }).Holds [] :=
  ⟨rfl, holds.bounded, holds.unread_eq⟩

theorem takeWhile_line (one_line : '\n' ∉ chars) :
    (chars ++ '\n' :: rest).takeWhile (· ≠ '\n') = chars := by
  rw [List.takeWhile_append_of_pos]
  · simp
  · intro c member
    have different : c ≠ '\n' := fun same => one_line (same ▸ member)
    simpa using different

theorem Holds.getline_line (holds : s.Holds (chars ++ '\n' :: rest)) (one_line : '\n' ∉ chars) :
    ∃ t : StringStream, s.getline = (some chars, t) ∧ t.Holds rest := by
  refine ⟨{ s with pos := s.pos + chars.length + 1 }, ?_, holds.good, ?_, ?_⟩
  · unfold getline
    rw [if_neg (by simp [holds.good]), if_neg (by simp [holds.unread_eq])]
    simp only [holds.unread_eq, takeWhile_line one_line]
    rw [if_pos (by simp)]
  · have size := congrArg List.length holds.unread_eq
    simp only [unread, List.length_drop, List.length_append, List.length_cons] at size
    show s.pos + chars.length + 1 ≤ s.text.length
    omega
  · have kept := holds.unread_eq
    unfold unread at kept
    show s.text.drop (s.pos + chars.length + 1) = rest
    rw [Nat.add_assoc, ← List.drop_drop, kept]
    simp

end StringStream

/-! ## Placeholders -/

theorem digit_spacing {c : Char} (digit : c.isDigit = true) :
    isSpace c = false ∧ c ≠ '-' ∧ c ≠ '+' ∧ c ≠ '\n' := by
  have range : 48 ≤ c.val ∧ c.val ≤ 57 := by
    simpa [Char.isDigit] using digit
  refine ⟨?_, ?_, ?_, ?_⟩
  · simp only [isSpace, Bool.or_eq_false_iff, Bool.and_eq_false_iff, decide_eq_false_iff_not]
    refine ⟨?_, Or.inr ?_⟩
    · rintro rfl
      exact absurd range.1 (by decide)
    · intro small
      have : c.val ≤ 13 := small
      exact absurd (UInt32.le_trans range.1 this) (by decide)
  all_goals
    rintro rfl
    exact absurd range.1 (by decide)

theorem strtol_index (index : Nat) : strtol (Nat.toDigits 10 index ++ [')']) = index := by
  have digits : ∀ c ∈ Nat.toDigits 10 index, c.isDigit = true := fun c member =>
    Nat.isDigit_of_mem_toDigits (by decide) (by decide) member
  have parsed : Nat.ofDigitChars 10
      ((Nat.toDigits 10 index ++ [')']).takeWhile Char.isDigit) 0 = index := by
    rw [List.takeWhile_append_of_pos digits]
    simp [Nat.ofDigitChars_ten_toDigits]
  cases shape : Nat.toDigits 10 index with
  | nil => exact absurd shape Nat.toDigits_ne_nil
  | cons c rest =>
    obtain ⟨no_space, no_minus, no_plus, -⟩ :=
      digit_spacing (digits c (by rw [shape]; exact List.mem_cons_self))
    rw [shape] at parsed
    unfold strtol
    rw [List.cons_append, List.dropWhile_cons_of_neg (by simp [no_space])]
    split
    · rename_i heq
      exact absurd (List.cons.inj heq).1 no_minus
    · rename_i heq
      exact absurd (List.cons.inj heq).1 no_plus
    · exact congrArg Int.ofNat parsed

def includeLine (index : Nat) : Text :=
  includeTag ++ (Nat.toDigits 10 index ++ [')'])

theorem placeholder_eq (index : Nat) : placeholder index = includeLine index ++ ['\n'] := by
  simp [placeholder, includeLine]

theorem includeLine_one_line (index : Nat) : '\n' ∉ includeLine index := by
  intro member
  rcases List.mem_append.1 member with tag | member
  · exact absurd tag (by decide)
  · rcases List.mem_append.1 member with digit | close
    · exact (digit_spacing (Nat.isDigit_of_mem_toDigits (by decide) (by decide) digit)).2.2.2 rfl
    · exact absurd close (by decide)

namespace Manager

theorem child_ofNat (m : Manager) (index : Nat) : m.child index = m.children[index]? := by
  simp [child]

variable {m : Manager} {rest : Text}

theorem emitOutput_end (holds : m.parentSs.Holds []) : m.emitOutput =
      some (true, { m with parentSs := StringStream.clear { m.parentSs with eof := true } }) := by
  rw [emitOutput]
  split
  · rename_i taken
    rw [holds.getline_end] at taken
    cases taken
    rfl
  · rename_i taken
    rw [holds.getline_end] at taken
    cases taken

theorem emitOutput_line {own : Line} (holds : m.parentSs.Holds (own.text ++ rest)) :
    ∃ ss : StringStream, ss.Holds rest ∧ m.emitOutput =
        emitOutput { m with parentSs := ss, outFile := m.outFile ++ own.text } := by
  have lines : m.parentSs.Holds (own.chars ++ '\n' :: rest) := by
    simpa [Line.text] using holds
  obtain ⟨ss, taken_eq, left⟩ := lines.getline_line own.one_line
  refine ⟨ss, left, ?_⟩
  rw [emitOutput]
  split
  · rename_i taken
    rw [taken_eq] at taken
    cases taken
  · rename_i taken
    rw [taken_eq] at taken
    cases taken
    rw [if_neg own.plain]
    simp [Line.text]

/-- On a placeholder, `emitOutput` looks at the child it names. -/
theorem emitOutput_report {index : Nat} {child : ChildProcess}
    (holds : m.parentSs.Holds (placeholder index ++ rest))
    (known : m.children[index]? = some child) :
    ∃ ss : StringStream, ss.Holds rest ∧ m.emitOutput =
        if child.eof then
          emitOutput
            { m with
              parentSs := ss
              outFile := m.outFile ++ child.output
              children := m.children.set index { child with output := [] } }
        else
          some (false, { m with parentSs := { text := placeholder index ++ rest } }) := by
  have lines : m.parentSs.Holds (includeLine index ++ '\n' :: rest) := by
    simpa [placeholder_eq] using holds
  obtain ⟨ss, taken_eq, left⟩ := lines.getline_line (includeLine_one_line index)
  refine ⟨ss, left, ?_⟩
  rw [emitOutput]
  split
  · rename_i taken
    rw [taken_eq] at taken
    cases taken
  · rename_i taken
    rw [taken_eq] at taken
    cases taken
    have tagged : includeTag <+: includeLine index := List.prefix_append _ _
    have number : strtol ((includeLine index).drop includeTag.length) = index := by
      rw [includeLine, List.drop_left, strtol_index]
    have position : ss.tellg = some ss.pos := by
      simp [StringStream.tellg, left.good]
    have unread : ss.text.drop ss.pos = rest := left.unread_eq
    simp only [if_pos tagged, number, child_ofNat, known, Int.toNat_natCast, position, unread,
      placeholder_eq, List.append_assoc, List.singleton_append]

end Manager

/-- Everything but the text of the manager's streams is the same. -/
structure SameWires (m m' : Manager) : Prop where
  max_eq : m'.maxActiveChildren = m.maxActiveChildren
  active_eq : m'.activeChildren = m.activeChildren
  slots_eq : m'.slots = m.slots
  wires_eq : m'.children.map (fun c => (c.pipe, c.eof)) = m.children.map (fun c => (c.pipe, c.eof))

/-- What the child has sent is the text received followed by the text in the
pipe. -/
def Delivers (k : Kernel) (m : Manager) (index : Nat) : Prop :=
  ∃ child pipe, m.children[index]? = some child ∧ k.pipes[index]? = some pipe ∧
    child.output ++ pipe.unread = pipe.sent

def Ended (m : Manager) (index : Nat) : Prop :=
  ∃ child, m.children[index]? = some child ∧ child.eof = true

/-- The lines that wait in the parent's stream, each report with its data. -/
structure Pending (k : Kernel) (m : Manager) (pending : List Entry) : Prop where
  holds : m.parentSs.Holds (pending.flatMap Entry.text)
  delivers : ∀ index, .report index ∈ pending → Delivers k m index
  distinct : (pending.filterMap Entry.reporter).Nodup

namespace SameWires

theorem refl (m : Manager) : SameWires m m :=
  ⟨rfl, rfl, rfl, rfl⟩

variable {m m' : Manager} {index : Nat} {child : ChildProcess}

theorem trans {m'' : Manager} (first : SameWires m m') (second : SameWires m' m'') :
    SameWires m m'' :=
  ⟨second.max_eq.trans first.max_eq, second.active_eq.trans first.active_eq,
    second.slots_eq.trans first.slots_eq, second.wires_eq.trans first.wires_eq⟩

theorem length_eq (same : SameWires m m') : m'.children.length = m.children.length := by
  simpa using congrArg List.length same.wires_eq

theorem child_back (same : SameWires m m') (known : m'.children[index]? = some child) :
    ∃ old, m.children[index]? = some old ∧ old.pipe = child.pipe ∧ old.eof = child.eof := by
  have wires := congrArg (fun l => l[index]?) same.wires_eq
  simp only [List.getElem?_map, known, Option.map_some] at wires
  obtain ⟨old, old_known, fields⟩ := Option.map_eq_some_iff.1 wires.symm
  cases Prod.mk.inj fields with
  | intro pipe_eq eof_eq => exact ⟨old, old_known, pipe_eq, eof_eq⟩

theorem of_set (known : m.children[index]? = some child) (child' : ChildProcess)
    (pipe_eq : child'.pipe = child.pipe) (eof_eq : child'.eof = child.eof)
    (ss : StringStream) (out : Text) :
    SameWires m
      { m with parentSs := ss, outFile := out, children := m.children.set index child' } := by
  refine ⟨rfl, rfl, rfl, ?_⟩
  apply List.ext_getElem?
  intro i
  rw [List.getElem?_map, List.getElem?_map, List.getElem?_set]
  split
  · rename_i here
    subst here
    have bounded := (List.getElem?_eq_some_iff.1 known).1
    rw [if_pos bounded, known]
    simp [pipe_eq, eof_eq]
  · rfl

theorem symm (same : SameWires m m') : SameWires m' m :=
  ⟨same.max_eq.symm, same.active_eq.symm, same.slots_eq.symm, same.wires_eq.symm⟩

theorem ended (same : SameWires m m') (ended : Ended m index) : Ended m' index := by
  obtain ⟨child, known, eof⟩ := ended
  obtain ⟨new, new_known, -, eof_eq⟩ := same.symm.child_back known
  exact ⟨new, new_known, eof_eq.trans eof⟩

end SameWires

def Drained (k : Kernel) (m : Manager) : Prop :=
  ∀ index, Ended m index →
    ∃ pipe, k.pipes[index]? = some pipe ∧ pipe.unread = [] ∧ pipe.closed = true

variable {k k' : Kernel} {m m' : Manager} {index i j fd other : Nat} {pending emitted : List Entry}
  {α : Type*} {l : List α} {new : α} {a : α} {slots : List Slot} {slot : Slot}
  {performed program : List Command} {child : ChildProcess} {loop : Loop} {s : System}

theorem SameWires.drained (same : SameWires m m') (drained : Drained k m) : Drained k m' :=
  fun index ended => drained index (same.symm.ended ended)

theorem Pending.released (waiting : Pending k m (.report index :: pending)) {ss : StringStream}
    (left : ss.Holds (pending.flatMap Entry.text)) (out : Text) (child : ChildProcess) :
    Pending k { m with parentSs := ss, outFile := out, children := m.children.set index child }
      pending := by
  obtain ⟨fresh, distinct⟩ : index ∉ pending.filterMap Entry.reporter ∧
      (pending.filterMap Entry.reporter).Nodup := List.nodup_cons.1 waiting.distinct
  refine ⟨left, ?_, distinct⟩
  intro other member
  have different : index ≠ other := by
    rintro rfl
    exact fresh (List.mem_filterMap.2 ⟨_, member, rfl⟩)
  obtain ⟨child, pipe, known, piped, received⟩ :=
    waiting.delivers other (List.mem_cons_of_mem _ member)
  exact ⟨child, pipe, by rw [List.getElem?_set_ne different, known], piped, received⟩

/-- What `emitOutput` does: it writes out the pending lines up to the first
report that has not arrived. -/
theorem emitOutput_spec (waiting : Pending k m pending) (drained : Drained k m) :
    ∃ complete m' now later, m.emitOutput = some (complete, m') ∧ pending = now ++ later ∧
      m'.outFile = m.outFile ++ now.flatMap (Entry.resolved k.sent) ∧
      SameWires m m' ∧ Pending k m' later ∧
      (∀ index, .report index ∈ now → Ended m' index) ∧
      (∀ index, .report index ∉ now → m'.children[index]? = m.children[index]?) ∧
      (complete = true → later = []) ∧
      (complete = false → ∃ child ∈ m'.children, child.eof = false) := by
  induction pending generalizing m with
  | nil =>
    refine ⟨true, _, [], [], m.emitOutput_end waiting.holds, rfl, by simp, ⟨rfl, rfl, rfl, rfl⟩,
      ⟨waiting.holds.clear_end, by simp, by simp⟩, by simp, fun _ _ => rfl, fun _ => rfl, by simp⟩
  | cons entry pending ih =>
    cases entry with
    | line own =>
      obtain ⟨ss, left, emit_eq⟩ := m.emitOutput_line waiting.holds
      have rest : Pending k { m with parentSs := ss, outFile := m.outFile ++ own.text } pending :=
        ⟨left, fun index member => waiting.delivers index (List.mem_cons_of_mem _ member),
          waiting.distinct⟩
      obtain ⟨complete, m', now, later, emitted, split, out, same, left', ended, kept, last,
        blocked⟩ := ih rest drained
      refine ⟨complete, m', .line own :: now, later, emit_eq.trans emitted, by rw [split]; rfl,
        ?_, ⟨same.max_eq, same.active_eq, same.slots_eq, same.wires_eq⟩, left', ?_, ?_, last,
        blocked⟩
      · rw [out, List.flatMap_cons, ← List.append_assoc]
        rfl
      · intro index member
        rcases List.mem_cons.1 member with absurd_entry | member
        · cases absurd_entry
        · exact ended index member
      · intro index absent
        exact kept index fun member => absent (List.mem_cons_of_mem _ member)
    | report index =>
      obtain ⟨child, pipe, known, piped, received⟩ := waiting.delivers index List.mem_cons_self
      obtain ⟨ss, left, emit_eq⟩ := m.emitOutput_report waiting.holds known
      by_cases eof : child.eof = true
      · rw [if_pos eof] at emit_eq
        obtain ⟨pipe', piped', empty, -⟩ := drained index ⟨child, known, eof⟩
        obtain rfl : pipe = pipe' := Option.some.inj (piped.symm.trans piped')
        have sent : k.sent index = child.output := by
          simp [Kernel.sent, piped, ← received, empty]
        have wires : SameWires m
            { m with
              parentSs := ss
              outFile := m.outFile ++ child.output
              children := m.children.set index { child with output := [] } } :=
          SameWires.of_set known { child with output := [] } rfl rfl ss _
        obtain ⟨complete, m', now, later, emitted, split, out, same, left', ended, kept, last,
          blocked⟩ := ih (waiting.released left _ _) (wires.drained drained)
        refine ⟨complete, m', .report index :: now, later, emit_eq.trans emitted,
          by rw [split]; rfl, ?_, wires.trans same, left', ?_, ?_, last, blocked⟩
        · rw [out, List.flatMap_cons, ← List.append_assoc, Entry.resolved, sent]
        · intro other member
          rcases List.mem_cons.1 member with this_one | member
          · cases this_one
            exact (wires.trans same).ended ⟨child, known, eof⟩
          · exact ended other member
        · intro other absent
          have different : index ≠ other := by
            rintro rfl
            exact absent List.mem_cons_self
          rw [kept other fun member => absent (List.mem_cons_of_mem _ member)]
          exact List.getElem?_set_ne different
      · rw [if_neg eof] at emit_eq
        refine ⟨false, _, [], .report index :: pending, emit_eq, rfl, by simp,
          ⟨rfl, rfl, rfl, rfl⟩, ⟨⟨rfl, Nat.zero_le _, rfl⟩, waiting.delivers, waiting.distinct⟩,
          by simp, fun _ _ => rfl, by simp, fun _ => ⟨child, List.mem_of_getElem? known, ?_⟩⟩
        simpa using eof

/-! ## Slots -/

theorem getElem?_set_cases
    (found : (l.set i new)[j]? = some a) : (i = j ∧ a = new) ∨ (i ≠ j ∧ l[j]? = some a) := by
  rw [List.getElem?_set] at found
  split at found
  · rename_i here
    split at found
    · exact Or.inl ⟨here, (Option.some.inj found).symm⟩
    · cases found
  · rename_i elsewhere
    exact Or.inr ⟨elsewhere, found⟩

theorem getElem?_snoc_cases
    (found : (l ++ [new])[j]? = some a) : (j = l.length ∧ a = new) ∨ l[j]? = some a := by
  rcases Nat.lt_or_ge j l.length with old | late
  · rw [List.getElem?_append_left old] at found
    exact Or.inr found
  · rw [List.getElem?_append_right late, List.getElem?_singleton] at found
    split at found
    · exact Or.inl ⟨by omega, (Option.some.inj found).symm⟩
    · cases found

theorem getElem?_snoc_old (found : l[j]? = some a) (new : α) : (l ++ [new])[j]? = some a := by
  rw [List.getElem?_append_left (List.getElem?_eq_some_iff.1 found).1, found]

/-- The used slots and the children that can still send are wired to each
other. -/
structure Wired (k : Kernel) (m : Manager) : Prop where
  sized : m.slots.length = m.maxActiveChildren
  paired : m.children.length = k.pipes.length
  counted : m.activeChildren = m.used.length
  slot_wired : ∀ (i : Nat) (slot : Slot) (fd : Nat), m.slots[i]? = some slot → slot.fd = some fd →
    ∃ index child, slot.child = some index ∧ m.children[index]? = some child ∧
      child.eof = false ∧ child.pipe = fd ∧ k.files fd = some index
  distinct : ∀ (i j : Nat) (slot slot' : Slot),
    m.slots[i]? = some slot → m.slots[j]? = some slot' → slot.fd ≠ none → slot'.fd ≠ none →
      slot.child = slot'.child → i = j
  child_wired : ∀ (index : Nat) (child : ChildProcess),
    m.children[index]? = some child → child.eof = false →
    ∃ (i : Nat) (slot : Slot), m.slots[i]? = some slot ∧ slot.fd = some child.pipe ∧
      slot.child = some index
  file_wired : ∀ (fd index : Nat), k.files fd = some index →
    ∃ child, m.children[index]? = some child ∧ child.pipe = fd

theorem used_length (m : Manager) : m.used.length = m.slots.countP fun slot => slot.fd.isSome := by
  rw [List.countP_eq_length_filter]
  rfl

namespace Wired

variable {k : Kernel} {m : Manager} {child : ChildProcess} {slot : Slot} {i index : Nat}

theorem active_le (wired : Wired k m) : m.activeChildren ≤ m.maxActiveChildren := by
  rw [wired.counted, used_length, ← wired.sized]
  exact List.countP_le_length

theorem all_ended (wired : Wired k m) (nobody : m.activeChildren = 0)
    (member : child ∈ m.children) : child.eof = true := by
  by_contra running
  obtain ⟨index, known⟩ := List.mem_iff_getElem?.1 member
  obtain ⟨i, slot, found, fd, -⟩ := wired.child_wired index child known (by simpa using running)
  have none_used := wired.counted
  rw [nobody, used_length] at none_used
  have free := List.countP_eq_zero.1 none_used.symm slot (List.mem_of_getElem? found)
  simp [fd] at free

theorem sameWires {m' : Manager} (wired : Wired k m) (same : SameWires m m') : Wired k m' := by
  refine ⟨?_, ?_, ?_, ?_, ?_, ?_, ?_⟩
  · rw [same.slots_eq, same.max_eq, wired.sized]
  · rw [same.length_eq, wired.paired]
  · rw [same.active_eq, wired.counted, used_length, used_length, same.slots_eq]
  · intro i slot fd found used
    rw [same.slots_eq] at found
    obtain ⟨index, child, mapped, known, running, pipe, file⟩ :=
      wired.slot_wired i slot fd found used
    obtain ⟨new, new_known, pipe_eq, eof_eq⟩ := same.symm.child_back known
    exact ⟨index, new, mapped, new_known, eof_eq.trans running, pipe_eq.trans pipe, file⟩
  · intro i j slot slot' found found'
    rw [same.slots_eq] at found found'
    exact wired.distinct i j slot slot' found found'
  · intro index child known running
    obtain ⟨old, old_known, pipe_eq, eof_eq⟩ := same.child_back known
    obtain ⟨i, slot, found, fd, mapped⟩ :=
      wired.child_wired index old old_known (eof_eq.trans running)
    exact ⟨i, slot, by rw [same.slots_eq, found], by rw [fd, pipe_eq], mapped⟩
  · intro fd index file
    obtain ⟨child, known, pipe⟩ := wired.file_wired fd index file
    obtain ⟨new, new_known, pipe_eq, -⟩ := same.symm.child_back known
    exact ⟨new, new_known, pipe_eq.trans pipe⟩

theorem kernel {k' : Kernel} (wired : Wired k m) (files_eq : k'.files = k.files)
    (length_eq : k'.pipes.length = k.pipes.length) : Wired k' m :=
  { wired with
    paired := wired.paired.trans length_eq.symm
    slot_wired := by rw [files_eq]; exact wired.slot_wired
    file_wired := by rw [files_eq]; exact wired.file_wired }

theorem poll_getElem? (k : Kernel) (slots : List Slot) (i : Nat)
    (found : (k.poll slots)[i]? = some slot) :
    ∃ old, slots[i]? = some old ∧ slot.fd = old.fd ∧ slot.child = old.child ∧
      (slot.revents = true → ∃ fd, old.fd = some fd ∧ k.ready fd = true) := by
  rw [Kernel.poll, List.getElem?_map] at found
  obtain ⟨old, old_found, rfl⟩ := Option.map_eq_some_iff.1 found
  refine ⟨old, old_found, rfl, rfl, ?_⟩
  intro event
  cases fd : old.fd with
  | none => simp [fd] at event
  | some fd' => exact ⟨fd', rfl, by simpa [fd] using event⟩

theorem poll (wired : Wired k m) : Wired k { m with slots := k.poll m.slots } := by
  refine ⟨?_, wired.paired, ?_, ?_, ?_, ?_, wired.file_wired⟩
  · simpa [Kernel.poll] using wired.sized
  · rw [used_length, wired.counted, used_length, Kernel.poll, List.countP_map]
    rfl
  · intro i slot fd found used
    obtain ⟨old, old_found, fd_eq, child_eq, -⟩ := poll_getElem? k m.slots i found
    rw [child_eq]
    exact wired.slot_wired i old fd old_found (fd_eq ▸ used)
  · intro i j slot slot' found found' used used' same
    obtain ⟨old, old_found, fd_eq, child_eq, -⟩ := poll_getElem? k m.slots i found
    obtain ⟨old', old_found', fd_eq', child_eq', -⟩ := poll_getElem? k m.slots j found'
    exact wired.distinct i j old old' old_found old_found' (fd_eq ▸ used) (fd_eq' ▸ used')
      (by rw [← child_eq, ← child_eq', same])
  · intro index child known running
    obtain ⟨i, slot, found, fd, mapped⟩ := wired.child_wired index child known running
    have polled : (k.poll m.slots)[i]? = some { slot with revents := k.ready child.pipe } := by
      rw [Kernel.poll, List.getElem?_map, found]
      simp [fd]
    exact ⟨i, _, polled, fd, mapped⟩

theorem received (wired : Wired k m) {data : Text} (known : m.children[index]? = some child)
    (some_data : data ≠ []) : Wired k (m.receive i slot index child data) := by
  rw [Manager.receive, if_neg some_data]
  exact wired.sameWires
    (SameWires.of_set known { child with output := child.output ++ data } rfl rfl _ _)

theorem ended (wired : Wired k m) {fd : Nat}
    (found : m.slots[i]? = some slot) (used : slot.fd = some fd)
    (mapped : slot.child = some index) (known : m.children[index]? = some child) :
    Wired (k.close child.pipe) (m.receive i slot index child []) := by
  obtain ⟨index', child', mapped', known', running, pipe, file⟩ :=
    wired.slot_wired i slot fd found used
  obtain rfl : index = index' := Option.some.inj (mapped.symm.trans mapped')
  obtain rfl : child = child' := Option.some.inj (known.symm.trans known')
  obtain ⟨in_range, here⟩ := List.getElem?_eq_some_iff.1 found
  rw [Manager.receive, if_pos rfl]
  refine ⟨?_, ?_, ?_, ?_, ?_, ?_, ?_⟩
  · simpa using wired.sized
  · simpa [Kernel.close] using wired.paired
  · have before := wired.counted
    rw [used_length] at before ⊢
    simp only [List.countP_set in_range, here, used, Option.isSome_some, Option.isSome_none,
      if_true, before]
    simp
  · intro j other fd' found' used'
    rcases getElem?_set_cases found' with ⟨-, rfl⟩ | ⟨other_slot, found'⟩
    · cases used'
    · obtain ⟨index', child', mapped', known', running', pipe', file'⟩ :=
        wired.slot_wired j other fd' found' used'
      have different : index ≠ index' := by
        rintro rfl
        exact other_slot (wired.distinct i j slot other found found' (by simp [used])
          (by simp [used']) (mapped.trans mapped'.symm))
      refine ⟨index', child', mapped', ?_, running', pipe', ?_⟩
      · rw [List.getElem?_set_ne different, known']
      · have other_fd : fd' ≠ child.pipe := by
          rintro rfl
          rw [pipe, file] at file'
          exact different (Option.some.inj file')
        simp [Kernel.close, Function.update_of_ne other_fd, file']
  · intro j l a b found_a found_b used_a used_b same
    have keep : ∀ {n : Nat} {x : Slot}, (m.slots.set i { slot with fd := none })[n]? = some x →
        x.fd ≠ none → m.slots[n]? = some x := by
      intro n x at_n used_n
      rcases getElem?_set_cases at_n with ⟨-, rfl⟩ | ⟨-, at_n⟩
      · exact absurd rfl used_n
      · exact at_n
    exact wired.distinct j l a b (keep found_a used_a) (keep found_b used_b) used_a used_b same
  · intro index' child' known' running'
    rcases getElem?_set_cases known' with ⟨-, rfl⟩ | ⟨different, known'⟩
    · cases running'
    · obtain ⟨j, other, found', used', mapped'⟩ :=
        wired.child_wired index' child' known' running'
      have other_slot : i ≠ j := by
        rintro rfl
        rw [found] at found'
        cases found'
        exact different (Option.some.inj (mapped.symm.trans mapped'))
      exact ⟨j, other, by rw [List.getElem?_set_ne other_slot, found'], used', mapped'⟩
  · intro fd' index' file'
    by_cases own : fd' = child.pipe
    · simp [Kernel.close, own] at file'
    · simp only [Kernel.close, Function.update_of_ne own] at file'
      obtain ⟨child', known', pipe'⟩ := wired.file_wired fd' index' file'
      by_cases same : index = index'
      · subst same
        cases known.symm.trans known'
        exact ⟨_, List.getElem?_set_self (List.getElem?_eq_some_iff.1 known).1, pipe'⟩
      · exact ⟨child', by rw [List.getElem?_set_ne same, known'], pipe'⟩

end Wired

theorem claimSlot_spec {slots' : List Slot}
    (claimed : Manager.claimSlot fd index slots = some slots') :
    ∃ (i : Nat) (slot : Slot), slots[i]? = some slot ∧ slot.fd = none ∧
      slots' = slots.set i { slot with fd := some fd, child := some index } := by
  induction slots generalizing slots' with
  | nil => cases claimed
  | cons slot slots ih =>
    rw [Manager.claimSlot] at claimed
    split at claimed
    · rename_i free
      cases claimed
      exact ⟨0, slot, rfl, free, rfl⟩
    · obtain ⟨rest, claimed', rfl⟩ := Option.map_eq_some_iff.1 claimed
      obtain ⟨i, found, at_i, free, rfl⟩ := ih claimed'
      exact ⟨i + 1, found, at_i, free, rfl⟩

theorem claimSlot_isSome (fd index : Nat)
    (room : slots.countP (fun slot => slot.fd.isSome) < slots.length) :
    (Manager.claimSlot fd index slots).isSome = true := by
  induction slots with
  | nil => simp at room
  | cons slot slots ih =>
    rw [Manager.claimSlot]
    split
    · rfl
    · rename_i busy
      rw [Option.isSome_map]
      apply ih
      rw [List.countP_cons_of_pos (by simpa [Option.isSome_iff_ne_none] using busy),
        List.length_cons] at room
      omega

theorem Wired.forked (wired : Wired k m)
    (fresh : k.files fd = none) (found : m.slots[i]? = some slot) (free : slot.fd = none) :
    Wired (k.pipe fd)
      { m with
        activeChildren := m.activeChildren + 1
        slots := m.slots.set i { slot with fd := some fd, child := some m.children.length }
        children := m.children ++ [{ pipe := fd }] } := by
  obtain ⟨in_range, here⟩ := List.getElem?_eq_some_iff.1 found
  refine ⟨?_, ?_, ?_, ?_, ?_, ?_, ?_⟩
  · simpa using wired.sized
  · simpa [Kernel.pipe] using wired.paired
  · have before := wired.counted
    rw [used_length] at before ⊢
    simp only [List.countP_set in_range, here, free, Option.isSome_some, Option.isSome_none,
      if_true, before]
    simp
  · intro j other fd' found' used
    rcases getElem?_set_cases found' with ⟨-, rfl⟩ | ⟨-, found'⟩
    · cases used
      exact ⟨m.children.length, { pipe := fd }, rfl, by simp, rfl, rfl,
        by simp [Kernel.pipe, wired.paired]⟩
    · obtain ⟨index, child, mapped, known, running, pipe, file⟩ :=
        wired.slot_wired j other fd' found' used
      refine ⟨index, child, mapped, getElem?_snoc_old known _, running, pipe, ?_⟩
      have other_fd : fd' ≠ fd := by
        rintro rfl
        simp [fresh] at file
      simp [Kernel.pipe, Function.update_of_ne other_fd, file]
  · have new_child : ∀ {n : Nat} {x : Slot}, m.slots[n]? = some x → x.fd ≠ none →
        x.child ≠ some m.children.length := by
      intro n x found' used same
      obtain ⟨fd', used⟩ := Option.ne_none_iff_exists'.1 used
      obtain ⟨index, child, mapped, known, -⟩ := wired.slot_wired n x fd' found' used
      have bounded := (List.getElem?_eq_some_iff.1 known).1
      rw [mapped] at same
      exact absurd (Option.some.inj same) (Nat.ne_of_lt bounded)
    intro j l a b found_a found_b used_a used_b same
    rcases getElem?_set_cases found_a with ⟨rfl, rfl⟩ | ⟨-, found_a⟩
    · rcases getElem?_set_cases found_b with ⟨rfl, rfl⟩ | ⟨-, found_b⟩
      · rfl
      · exact absurd same.symm (new_child found_b used_b)
    · rcases getElem?_set_cases found_b with ⟨rfl, rfl⟩ | ⟨-, found_b⟩
      · exact absurd same (new_child found_a used_a)
      · exact wired.distinct j l a b found_a found_b used_a used_b same
  · intro index child known running
    rcases getElem?_snoc_cases known with ⟨rfl, rfl⟩ | known
    · exact ⟨i, _, List.getElem?_set_self in_range, rfl, rfl⟩
    · obtain ⟨j, other, found', used, mapped⟩ := wired.child_wired index child known running
      have other_slot : i ≠ j := by
        rintro rfl
        rw [found] at found'
        cases found'
        rw [free] at used
        cases used
      exact ⟨j, other, by rw [List.getElem?_set_ne other_slot, found'], used, mapped⟩
  · intro fd' index file
    by_cases own : fd' = fd
    · subst own
      simp only [Kernel.pipe, Function.update_self] at file
      cases file
      exact ⟨{ pipe := fd' }, by simp [← wired.paired], rfl⟩
    · simp only [Kernel.pipe, Function.update_of_ne own] at file
      obtain ⟨child, known, pipe⟩ := wired.file_wired fd' index file
      exact ⟨child, getElem?_snoc_old known _, pipe⟩

/-! ## The ledger of the output -/

def forks : List Command → Nat
  | [] => 0
  | .print _ :: rest => forks rest
  | .verify :: rest => forks rest + 1

theorem entries_append (next : Nat) (first second : List Command) :
    entries next (first ++ second) = entries next first ++ entries (next + forks first) second := by
  induction first generalizing next with
  | nil => rfl
  | cons command first ih =>
    cases command with
    | print own =>
      rw [List.cons_append, entries, entries, ih, forks, List.cons_append]
    | verify =>
      rw [List.cons_append, entries, entries, ih, forks, List.cons_append]
      congr 3
      omega

theorem forks_append (first second : List Command) :
    forks (first ++ second) = forks first + forks second := by
  induction first with
  | nil => simp [forks]
  | cons command first ih =>
    cases command with
    | print own => rw [List.cons_append, forks, forks, ih]
    | verify =>
      rw [List.cons_append, forks, forks, ih]
      omega

theorem entries_reporters (next : Nat) (program : List Command) :
    (entries next program).filterMap Entry.reporter = List.range' next (forks program) := by
  induction program generalizing next with
  | nil => rfl
  | cons command program ih =>
    cases command with
    | print own => exact ih next
    | verify =>
      rw [entries, forks, List.range'_succ, ← ih (next + 1)]
      rfl

/-- The output after the commands `performed`: the lines `emitted` are in the
file, and the lines `pending` wait in the parent's stream. -/
structure Ledger (performed : List Command) (emitted pending : List Entry)
    (k : Kernel) (m : Manager) : Prop where
  text_eq : entries 0 performed = emitted ++ pending
  forked : forks performed = m.children.length
  out_eq : m.outFile = emitted.flatMap (Entry.resolved k.sent)
  waiting : Pending k m pending
  ended : ∀ index, .report index ∈ emitted → Ended m index

/-- A change that leaves the parent's text alone and loses no child's data. -/
structure Evolves (k : Kernel) (m : Manager) (k' : Kernel) (m' : Manager) : Prop where
  length_eq : m'.children.length = m.children.length
  out_eq : m'.outFile = m.outFile
  stream_eq : m'.parentSs = m.parentSs
  sent_eq : ∀ index, Ended m index → k'.sent index = k.sent index
  delivers : ∀ index, Delivers k m index → Delivers k' m' index
  ended : ∀ index, Ended m index → Ended m' index

theorem resolved_congr {sent sent' : Nat → Text}
    (same : ∀ index, .report index ∈ emitted → sent' index = sent index) :
    emitted.flatMap (Entry.resolved sent') = emitted.flatMap (Entry.resolved sent) := by
  apply List.flatMap_congr
  intro entry member
  cases entry with
  | line own => rfl
  | report index => exact same index member

theorem Ledger.evolve (ledger : Ledger performed emitted pending k m) (change : Evolves k m k' m') :
    Ledger performed emitted pending k' m' where
  text_eq := ledger.text_eq
  forked := ledger.forked.trans change.length_eq.symm
  out_eq := by
    rw [change.out_eq, ledger.out_eq]
    exact (resolved_congr fun index member => change.sent_eq index (ledger.ended index member)).symm
  waiting :=
    { holds := change.stream_eq ▸ ledger.waiting.holds
      delivers := fun index member => change.delivers index (ledger.waiting.delivers index member)
      distinct := ledger.waiting.distinct }
  ended := fun index member => change.ended index (ledger.ended index member)

theorem Ledger.print (ledger : Ledger performed emitted pending k m) (own : Line) :
    Ledger (performed ++ [.print own]) emitted (pending ++ [.line own]) k (m.print own.text) where
  text_eq := by
    rw [entries_append, ledger.text_eq, List.append_assoc]
    rfl
  forked := by
    rw [forks_append]
    exact ledger.forked
  out_eq := ledger.out_eq
  waiting :=
    { holds := by
        simpa [Entry.text, Manager.print] using ledger.waiting.holds.write own.text
      delivers := by
        intro index member
        rcases List.mem_append.1 member with member | member
        · exact ledger.waiting.delivers index member
        · cases List.mem_singleton.1 member
      distinct := by
        have plain : [Entry.line own].filterMap Entry.reporter = [] := rfl
        rw [List.filterMap_append, plain, List.append_nil]
        exact ledger.waiting.distinct }
  ended := ledger.ended

/-! ## Children and reads -/

theorem Drained.not_running (drained : Drained k m)
    {pipe : Pipe} (found : k.pipes[index]? = some pipe) (running : pipe.closed = false)
    (ended : Ended m other) : index ≠ other := by
  rintro rfl
  obtain ⟨pipe', found', -, closed⟩ := drained index ended
  cases found.symm.trans found'
  rw [running] at closed
  cases closed

theorem sent_set_ne (different : index ≠ other) (pipe : Pipe) :
    Kernel.sent { k with pipes := k.pipes.set index pipe } other = k.sent other := by
  simp [Kernel.sent, List.getElem?_set_ne different]

theorem Delivers.set_ne (delivers : Delivers k m other) (different : index ≠ other) (pipe : Pipe) :
    Delivers { k with pipes := k.pipes.set index pipe } m other := by
  obtain ⟨child, pipe', known, found, received⟩ := delivers
  exact ⟨child, pipe', known, by rw [List.getElem?_set_ne different, found], received⟩

theorem Drained.set_ne (drained : Drained k m)
    (different : ∀ other, Ended m other → index ≠ other) (pipe : Pipe) :
    Drained { k with pipes := k.pipes.set index pipe } m := by
  intro other ended
  obtain ⟨pipe', found, empty, closed⟩ := drained other ended
  exact ⟨pipe', by rw [List.getElem?_set_ne (different other ended), found], empty, closed⟩

theorem childWrites_evolves (drained : Drained k m) {pipe : Pipe} (chunk : Text)
    (found : k.pipes[index]? = some pipe) (running : pipe.closed = false) :
    Evolves k m (k.write index pipe chunk) m where
  length_eq := rfl
  out_eq := rfl
  stream_eq := rfl
  sent_eq := fun other ended => sent_set_ne (drained.not_running found running ended) _
  delivers := by
    intro other delivers
    by_cases different : index = other
    · subst different
      obtain ⟨child, pipe', known, found', received⟩ := delivers
      cases found.symm.trans found'
      refine ⟨child, _, known, List.getElem?_set_self (List.getElem?_eq_some_iff.1 found).1, ?_⟩
      rw [← List.append_assoc, received]
    · exact delivers.set_ne different _
  ended := fun _ ended => ended

theorem childExits_evolves (drained : Drained k m)
    {pipe : Pipe} (found : k.pipes[index]? = some pipe) (running : pipe.closed = false) :
    Evolves k m (k.exit index pipe) m where
  length_eq := rfl
  out_eq := rfl
  stream_eq := rfl
  sent_eq := fun other ended => sent_set_ne (drained.not_running found running ended) _
  delivers := by
    intro other delivers
    by_cases different : index = other
    · subst different
      obtain ⟨child, pipe', known, found', received⟩ := delivers
      cases found.symm.trans found'
      exact ⟨child, _, known, List.getElem?_set_self (List.getElem?_eq_some_iff.1 found).1,
        received⟩
    · exact delivers.set_ne different _
  ended := fun _ ended => ended

theorem received_evolves {pipe : Pipe} {data rest : Text}
    (known : m.children[index]? = some child) (found : k.pipes[index]? = some pipe)
    (split : pipe.unread = data ++ rest) (some_data : data ≠ []) :
    Evolves k m { k with pipes := k.pipes.set index { pipe with unread := rest } }
      (m.receive i slot index child data) := by
  rw [Manager.receive, if_neg some_data]
  refine ⟨by simp, rfl, rfl, ?_, ?_, ?_⟩
  · intro other _
    by_cases different : index = other
    · subst different
      simp only [Kernel.sent, found, List.getElem?_set_self (List.getElem?_eq_some_iff.1 found).1]
    · exact sent_set_ne different _
  · intro other delivers
    obtain ⟨child', pipe', known', found', received⟩ := delivers
    by_cases different : index = other
    · subst different
      cases known.symm.trans known'
      cases found.symm.trans found'
      refine ⟨_, _, List.getElem?_set_self (List.getElem?_eq_some_iff.1 known).1,
        List.getElem?_set_self (List.getElem?_eq_some_iff.1 found).1, ?_⟩
      rw [List.append_assoc, ← split, received]
    · exact ⟨child', pipe', by rw [List.getElem?_set_ne different, known'],
        by rw [List.getElem?_set_ne different, found'], received⟩
  · intro other ended
    exact (SameWires.of_set known { child with output := child.output ++ data } rfl rfl _ _).ended
      ended

theorem ended_evolves (known : m.children[index]? = some child) :
    Evolves k m (k.close child.pipe) (m.receive i slot index child []) := by
  rw [Manager.receive, if_pos rfl]
  refine ⟨by simp, rfl, rfl, fun _ _ => rfl, ?_, ?_⟩
  · rintro other ⟨child', pipe, known', found, received⟩
    by_cases different : index = other
    · subst different
      cases known.symm.trans known'
      exact ⟨_, pipe, List.getElem?_set_self (List.getElem?_eq_some_iff.1 known).1, found, received⟩
    · exact ⟨child', pipe, by rw [List.getElem?_set_ne different, known'], found, received⟩
  · rintro other ⟨child', known', eof⟩
    by_cases different : index = other
    · subst different
      exact ⟨_, List.getElem?_set_self (List.getElem?_eq_some_iff.1 known).1, rfl⟩
    · exact ⟨child', by rw [List.getElem?_set_ne different, known'], eof⟩

/-! ## Forks -/

theorem report_lt (member : .report index ∈ entries 0 program) : index < forks program := by
  have reported : index ∈ (entries 0 program).filterMap Entry.reporter :=
    List.mem_filterMap.2 ⟨_, member, rfl⟩
  rw [entries_reporters] at reported
  simpa using reported

theorem sent_pipe (old : index < k.pipes.length) (fd : Nat) :
    (k.pipe fd).sent index = k.sent index := by
  simp only [Kernel.sent, Kernel.pipe, List.getElem?_append_left old]

theorem Delivers.pipe (delivers : Delivers k m index)
    (fd : Nat) : Delivers (k.pipe fd) m index := by
  obtain ⟨child, pipe, known, found, received⟩ := delivers
  exact ⟨child, pipe, known, getElem?_snoc_old found _, received⟩

theorem Drained.pipe (drained : Drained k m) (fd : Nat) : Drained (k.pipe fd) m := by
  intro index ended
  obtain ⟨pipe, found, empty, closed⟩ := drained index ended
  exact ⟨pipe, getElem?_snoc_old found _, empty, closed⟩

def Manager.push (m : Manager) (fd : Nat) : Manager :=
  { m with children := m.children ++ [{ pipe := fd }] }

theorem Ended.push (ended : Ended m index) (fd : Nat) : Ended (m.push fd) index := by
  obtain ⟨child, known, eof⟩ := ended
  exact ⟨child, getElem?_snoc_old known _, eof⟩

theorem Drained.push (drained : Drained k m) (fd : Nat) : Drained k (m.push fd) := by
  rintro index ⟨child, known, eof⟩
  rcases getElem?_snoc_cases known with ⟨-, rfl⟩ | known
  · cases eof
  · exact drained index ⟨child, known, eof⟩

theorem Pending.push
    (waiting : Pending k m pending) (fd : Nat) : Pending k (m.push fd) pending where
  holds := waiting.holds
  delivers := by
    intro index member
    obtain ⟨child, pipe, known, found, received⟩ := waiting.delivers index member
    exact ⟨child, pipe, getElem?_snoc_old known _, found, received⟩
  distinct := waiting.distinct

/-- The output that `limitedFork` may emit before it forks. -/
theorem flush_spec (drained : Drained k m)
    (ledger : Ledger performed emitted pending k m) (fd : Nat) :
    ∃ m' emitted' pending',
      (if m.children.length % 100 = 0 then (m.push fd).emitOutput.map Prod.snd
        else some (m.push fd)) = some m' ∧
      SameWires (m.push fd) m' ∧
      m'.children[m.children.length]? = some { pipe := fd } ∧
      entries 0 performed = emitted' ++ pending' ∧
      m'.outFile = emitted'.flatMap (Entry.resolved k.sent) ∧
      Pending k m' pending' ∧
      ∀ index, .report index ∈ emitted' → Ended m' index := by
  have last : (m.push fd).children[m.children.length]? = some { pipe := fd } := by
    simp [Manager.push]
  split
  · obtain ⟨complete, m', now, later, emits, split, out, same, left, ended, kept, -, -⟩ :=
      emitOutput_spec (ledger.waiting.push fd) (drained.push fd)
    have text : entries 0 performed = (emitted ++ now) ++ later := by
      rw [ledger.text_eq, split, List.append_assoc]
    refine ⟨m', emitted ++ now, later, by rw [emits]; rfl, same, ?_, text, ?_, left, ?_⟩
    · rw [kept, last]
      intro member
      have old : m.children.length < forks performed := report_lt (by rw [text]; simp [member])
      rw [ledger.forked] at old
      exact Nat.lt_irrefl _ old
    · rw [out, List.flatMap_append]
      exact congrArg (· ++ _) ledger.out_eq
    · intro index member
      rcases List.mem_append.1 member with member | member
      · exact same.ended ((ledger.ended index member).push fd)
      · exact ended index member
  · exact ⟨m.push fd, emitted, pending, rfl, SameWires.refl _, last, ledger.text_eq, ledger.out_eq,
      ledger.waiting.push fd, fun index member => (ledger.ended index member).push fd⟩

/-- A fork never fails an assertion, and its placeholder joins the pending
lines. -/
theorem verify_spec (wired : Wired k m) (drained : Drained k m)
    (ledger : Ledger performed emitted pending k m) (fresh : k.files fd = none)
    (room : m.activeChildren < m.maxActiveChildren) :
    ∃ m' emitted' pending', m.verify fd = some m' ∧ m'.maxActiveChildren = m.maxActiveChildren ∧
      Wired (k.pipe fd) m' ∧ Drained (k.pipe fd) m' ∧
      Ledger (performed ++ [.verify]) emitted' pending' (k.pipe fd) m' := by
  obtain ⟨flushed, emitted', pending', flush, same, last, text, out, left, ended⟩ :=
    flush_spec drained ledger fd
  have free : m.slots.countP (fun slot => slot.fd.isSome) < m.slots.length := by
    rw [← used_length, ← wired.counted, wired.sized]
    exact room
  obtain ⟨slots, claimed⟩ := Option.isSome_iff_exists.1 (claimSlot_isSome fd m.children.length free)
  obtain ⟨i, slot, found, free_slot, slots_eq⟩ := claimSlot_spec claimed
  have launched : m.launch fd = some (m.children.length,
      { flushed with activeChildren := flushed.activeChildren + 1, slots := slots }) := by
    have slots_flushed : flushed.slots = m.slots := same.slots_eq
    simp only [Manager.push] at flush
    by_cases turn : m.children.length % 100 = 0
    · rw [if_pos turn] at flush
      simp [Manager.launch, if_pos turn, flush, slots_flushed, claimed]
    · rw [if_neg turn] at flush
      obtain rfl := Option.some.inj flush
      simp [Manager.launch, if_neg turn, claimed]
  have verified : m.verify fd = some
      ({ flushed with activeChildren := flushed.activeChildren + 1, slots := slots }.print
        (placeholder m.children.length)) := by
    simp [Manager.verify, launched]
  have wires : SameWires
      { m with
        activeChildren := m.activeChildren + 1
        slots := slots
        children := m.children ++ [{ pipe := fd }] }
      ({ flushed with activeChildren := flushed.activeChildren + 1, slots := slots }.print
        (placeholder m.children.length)) :=
    ⟨same.max_eq, congrArg (· + 1) same.active_eq, rfl, same.wires_eq⟩
  refine ⟨_, emitted', pending' ++ [.report m.children.length], verified, wires.max_eq, ?_, ?_, ?_⟩
  · have forked := wired.forked fresh found free_slot
    rw [← slots_eq] at forked
    exact forked.sameWires wires
  · exact ((same.drained (drained.push fd)).pipe fd)
  · have old : ∀ index, .report index ∈ emitted' → index < k.pipes.length := by
      intro index member
      rw [← wired.paired, ← ledger.forked]
      exact report_lt (by rw [text]; simp [member])
    have text' : entries 0 (performed ++ [.verify]) =
        emitted' ++ (pending' ++ [.report m.children.length]) := by
      rw [entries_append, text, List.append_assoc, ledger.forked, Nat.zero_add]
      rfl
    refine ⟨text', ?_, ?_, ⟨?_, ?_, ?_⟩, ended⟩
    · rw [forks_append, ledger.forked]
      have size := same.length_eq
      simpa [Manager.push, Manager.print, forks] using size.symm
    · exact out.trans (resolved_congr fun index member => sent_pipe (old index member) fd).symm
    · simpa [Entry.text, Manager.print] using left.holds.write (placeholder m.children.length)
    · intro index member
      rcases List.mem_append.1 member with member | member
      · exact (left.delivers index member).pipe fd
      · cases List.mem_singleton.1 member
        exact ⟨_, {}, last, by simp [Kernel.pipe, wired.paired], rfl⟩
    · have all := entries_reporters 0 (performed ++ [.verify])
      rw [text', List.filterMap_append] at all
      have distinct : (emitted'.filterMap Entry.reporter ++
          (pending' ++ [Entry.report m.children.length]).filterMap Entry.reporter).Nodup := by
        rw [all]
        exact List.nodup_range'
      exact (List.nodup_append.1 distinct).2.1

/-! ## Runs -/

def Loop.Serves : Loop → List Command → Prop
  | .drain, todo => ∃ rest, todo = .verify :: rest
  | .throttle, todo => ∃ rest, todo = .verify :: rest
  | .finish, todo => todo = []

/-- From the slot `i` on, `poll` reported only descriptors that can be read. -/
def EventsReady (k : Kernel) (slots : List Slot) (i : Nat) : Prop :=
  ∀ (j : Nat) (slot : Slot), i ≤ j → slots[j]? = some slot → slot.revents = true →
    ∃ fd, slot.fd = some fd ∧ k.ready fd = true

def ControlOk (s : System) : Prop :=
  match s.control with
  | .idle => True
  | .calling loop => loop.Serves s.todo
  | .scanning loop i => loop.Serves s.todo ∧ EventsReady s.kernel s.manager.slots i
  | .throttling => ∃ rest, s.todo = .verify :: rest
  | .joining => s.todo = [] ∧ s.manager.activeChildren = 0
  | .done => s.todo = []
  | .exited => True
  | .failed => False

/-- The invariant of all runs. -/
structure Consistent (maxActive : Nat) (program performed : List Command)
    (emitted pending : List Entry) (s : System) : Prop where
  max_eq : s.manager.maxActiveChildren = maxActive
  program_eq : program = performed ++ s.todo
  wired : Wired s.kernel s.manager
  drained : Drained s.kernel s.manager
  ledger : Ledger performed emitted pending s.kernel s.manager
  control : ControlOk s
  finished : s.control = .done → pending = []

theorem Loop.resume_true_ok (serves : loop.Serves s.todo) :
    ControlOk { s with control := loop.resume true } := by
  cases loop <;> exact serves

theorem Loop.resume_false_ok {todo : List Command}
    (serves : loop.Serves todo) (nobody : loop.blocking = true → m.activeChildren = 0) :
    ControlOk { control := loop.resume false, todo := todo, manager := m, kernel := k } := by
  cases loop with
  | drain => exact serves
  | throttle => exact serves
  | finish => exact ⟨serves, nobody rfl⟩

theorem ready_congr (file_eq : k'.files fd = k.files fd)
    (pipe_eq : ∀ index, k.files fd = some index → k'.pipes[index]? = k.pipes[index]?) :
    k'.ready fd = k.ready fd := by
  unfold Kernel.ready
  rw [file_eq]
  cases file : k.files fd with
  | none => rfl
  | some index => simp only [pipe_eq index file]

theorem ready_set {pipe pipe' : Pipe}
    (found : k.pipes[index]? = some pipe) (more : (!pipe.unread.isEmpty || pipe.closed) = true →
      (!pipe'.unread.isEmpty || pipe'.closed) = true)
    (ready : k.ready fd = true) :
    Kernel.ready { k with pipes := k.pipes.set index pipe' } fd = true := by
  by_cases own : k.files fd = some index
  · have in_range := (List.getElem?_eq_some_iff.1 found).1
    simp only [Kernel.ready, own, found] at ready
    simp only [Kernel.ready, own, List.getElem?_set_self in_range]
    exact more ready
  · rw [← ready]
    refine ready_congr rfl ?_
    intro other file
    refine List.getElem?_set_ne ?_
    rintro rfl
    exact own file

theorem ControlOk.of_ready (ok : ControlOk s)
    (ready : ∀ fd, s.kernel.ready fd = true → k.ready fd = true) :
    ControlOk { s with kernel := k } := by
  unfold ControlOk at ok ⊢
  cases control : s.control with
  | scanning loop i =>
    simp only [control] at ok ⊢
    refine ⟨ok.1, ?_⟩
    intro j slot late found event
    obtain ⟨fd, used, was_ready⟩ := ok.2 j slot late found event
    exact ⟨fd, used, ready fd was_ready⟩
  | idle => trivial
  | exited => trivial
  | failed =>
    rw [control] at ok
    exact ok.elim
  | calling _ | throttling | joining | done =>
    rw [control] at ok
    exact ok

theorem Loop.resume_ne_done (loop : Loop) (result : Bool) : loop.resume result ≠ .done := by
  cases loop <;> cases result <;> decide

namespace Consistent

variable {maxActive : Nat} {program performed : List Command} {emitted pending : List Entry}
  {s : System}

variable {control : Control} {index i : Nat} {loop : Loop} {slot : Slot} {child : ChildProcess}

variable (ok : Consistent maxActive program performed emitted pending s)

include ok

theorem move (control_ok : ControlOk { s with control := control }) (running : control ≠ .done) :
    Consistent maxActive program performed emitted pending { s with control := control } where
  max_eq := ok.max_eq
  program_eq := ok.program_eq
  wired := ok.wired
  drained := ok.drained
  ledger := ok.ledger
  control := control_ok
  finished := fun done => absurd done running

theorem childWrites {pipe : Pipe} (chunk : Text) (found : s.kernel.pipes[index]? = some pipe)
    (running : pipe.closed = false) :
    Consistent maxActive program performed emitted pending
      { s with kernel := s.kernel.write index pipe chunk } where
  max_eq := ok.max_eq
  program_eq := ok.program_eq
  wired := ok.wired.kernel rfl (by simp [Kernel.write])
  drained := ok.drained.set_ne (fun _ ended => ok.drained.not_running found running ended) _
  ledger := ok.ledger.evolve (childWrites_evolves ok.drained chunk found running)
  control := by
    refine ok.control.of_ready fun fd ready => ready_set found ?_ ready
    cases unread : pipe.unread <;> simp [running]
  finished := ok.finished

theorem childExits {pipe : Pipe} (found : s.kernel.pipes[index]? = some pipe)
    (running : pipe.closed = false) :
    Consistent maxActive program performed emitted pending
      { s with kernel := s.kernel.exit index pipe } where
  max_eq := ok.max_eq
  program_eq := ok.program_eq
  wired := ok.wired.kernel rfl (by simp [Kernel.exit])
  drained := ok.drained.set_ne (fun _ ended => ok.drained.not_running found running ended) _
  ledger := ok.ledger.evolve (childExits_evolves ok.drained found running)
  control := ok.control.of_ready fun fd ready => ready_set found (by simp) ready
  finished := ok.finished

theorem polled (control_ok : EventsReady s.kernel (s.kernel.poll s.manager.slots) 0 → ControlOk
        { s with
          control := control
          manager := { s.manager with slots := s.kernel.poll s.manager.slots } })
    (running : control ≠ .done) :
    Consistent maxActive program performed emitted pending
      { s with
        control := control
        manager := { s.manager with slots := s.kernel.poll s.manager.slots } } where
  max_eq := ok.max_eq
  program_eq := ok.program_eq
  wired := ok.wired.poll
  drained := ok.drained
  ledger := ok.ledger.evolve ⟨rfl, rfl, rfl, fun _ _ => rfl, fun _ h => h, fun _ h => h⟩
  control := by
    refine control_ok ?_
    intro j slot _ found event
    obtain ⟨old, -, fd_eq, -, readable⟩ := Wired.poll_getElem? _ _ j found
    obtain ⟨fd, used, ready⟩ := readable event
    exact ⟨fd, fd_eq.trans used, ready⟩
  finished := fun done => absurd done running

theorem event_wired (control : s.control = .scanning loop i)
    (found : s.manager.slots[i]? = some slot) (event : slot.revents = true) :
    loop.Serves s.todo ∧ ∃ index child, slot.fd = some child.pipe ∧ slot.child = some index ∧
      s.manager.children[index]? = some child ∧ child.eof = false ∧
      s.kernel.files child.pipe = some index ∧ s.kernel.ready child.pipe = true := by
  have control_ok := ok.control
  rw [ControlOk, control] at control_ok
  obtain ⟨fd, used, ready⟩ := control_ok.2 i slot (Nat.le_refl i) found event
  obtain ⟨index, child, mapped, known, running, rfl, file⟩ :=
    ok.wired.slot_wired i slot fd found used
  exact ⟨control_ok.1, index, child, used, mapped, known, running, file, ready⟩

theorem other_slot {j fd : Nat}
    {other : Slot} (found : s.manager.slots[i]? = some slot) (used : slot.fd = some child.pipe)
    (mapped : slot.child = some index) (later : i ≠ j) (found' : s.manager.slots[j]? = some other)
    (used' : other.fd = some fd) : s.kernel.files fd ≠ some index := by
  intro file
  obtain ⟨index', child', mapped', -, -, -, file'⟩ := ok.wired.slot_wired j other fd found' used'
  rw [file] at file'
  exact later (ok.wired.distinct i j slot other found found' (by simp [used]) (by simp [used'])
    (by rw [mapped, mapped', Option.some.inj file']))

theorem scanData {data : Text} {kernel : Kernel} (control : s.control = .scanning loop i)
    (found : s.manager.slots[i]? = some slot) (event : slot.revents = true)
    (mapped : slot.child = some index) (known : s.manager.children[index]? = some child)
    (reads : s.kernel.Reads child.pipe data kernel) (some_data : data ≠ []) :
    Consistent maxActive program performed emitted pending
      { s with
        control := .scanning loop (i + 1)
        manager := s.manager.receive i slot index child data
        kernel := kernel } := by
  obtain ⟨serves, index', child', used, mapped', known', running, file, -⟩ :=
    ok.event_wired control found event
  obtain rfl : index = index' := Option.some.inj (mapped.symm.trans mapped')
  obtain rfl : child = child' := Option.some.inj (known.symm.trans known')
  cases reads with
  | eof => exact absurd rfl some_data
  | data file' piped split =>
    obtain rfl := Option.some.inj (file.symm.trans file')
    have not_ended : ∀ other, Ended s.manager other → index ≠ other := by
      rintro other ⟨child', known', eof⟩ rfl
      cases known.symm.trans known'
      rw [running] at eof
      cases eof
    have wires : SameWires s.manager (s.manager.receive i slot index child data) := by
      rw [Manager.receive, if_neg some_data]
      exact SameWires.of_set known { child with output := child.output ++ data } rfl rfl _ _
    refine ⟨wires.max_eq.trans ok.max_eq, ok.program_eq, ?_, ?_,
      ok.ledger.evolve (received_evolves known piped split some_data),
      ⟨serves, ?_⟩, nofun⟩
    · exact (ok.wired.received known some_data).kernel rfl (by simp)
    · exact wires.drained (ok.drained.set_ne not_ended _)
    · have control_ok := ok.control
      rw [ControlOk, control] at control_ok
      intro j other late found' event'
      rw [show (s.manager.receive i slot index child data).slots = s.manager.slots
        from wires.slots_eq] at found'
      obtain ⟨fd, used', ready⟩ := control_ok.2 j other (by omega) found' event'
      refine ⟨fd, used', ?_⟩
      rw [← ready]
      refine ready_congr rfl ?_
      intro index' file''
      refine List.getElem?_set_ne ?_
      rintro rfl
      exact ok.other_slot found used mapped (by omega) found' used' file''

theorem scanEof {kernel : Kernel}
    (control : s.control = .scanning loop i) (found : s.manager.slots[i]? = some slot)
    (event : slot.revents = true) (mapped : slot.child = some index)
    (known : s.manager.children[index]? = some child)
    (reads : s.kernel.Reads child.pipe [] kernel) :
    Consistent maxActive program performed emitted pending
      { s with
        control := .scanning loop (i + 1)
        manager := s.manager.receive i slot index child []
        kernel := kernel.close child.pipe } := by
  obtain ⟨serves, index', child', used, mapped', known', running, file, -⟩ :=
    ok.event_wired control found event
  obtain rfl : index = index' := Option.some.inj (mapped.symm.trans mapped')
  obtain rfl : child = child' := Option.some.inj (known.symm.trans known')
  cases reads with
  | data _ _ _ some_data => exact absurd rfl some_data
  | eof file' piped empty closed =>
    obtain rfl := Option.some.inj (file.symm.trans file')
    refine ⟨ok.max_eq, ok.program_eq, ok.wired.ended found used mapped known, ?_,
      ok.ledger.evolve (ended_evolves known), ⟨serves, ?_⟩, nofun⟩
    · rintro other ⟨child', known', eof⟩
      rw [Manager.receive, if_pos rfl] at known'
      rcases getElem?_set_cases known' with ⟨rfl, -⟩ | ⟨-, known'⟩
      · exact ⟨_, piped, empty, closed⟩
      · exact ok.drained other ⟨child', known', eof⟩
    · have control_ok := ok.control
      rw [ControlOk, control] at control_ok
      intro j other late found' event'
      rw [Manager.receive, if_pos rfl] at found'
      rcases getElem?_set_cases found' with ⟨rfl, -⟩ | ⟨-, found'⟩
      · omega
      · obtain ⟨fd, used', ready⟩ := control_ok.2 j other (by omega) found' event'
        have other_fd : fd ≠ child.pipe := by
          rintro rfl
          exact ok.other_slot found used mapped (by omega) found' used' file
        refine ⟨fd, used', ?_⟩
        rw [← ready]
        exact ready_congr (Function.update_of_ne other_fd _ _) fun _ _ => rfl

/-- The last `emitOutput` finds every report. -/
theorem join (control : s.control = .joining) : ∃ m', s.manager.emitOutput = some (true, m') ∧
      Consistent maxActive program performed (emitted ++ pending) []
        { s with control := .done, manager := m' } := by
  have control_ok := ok.control
  rw [ControlOk, control] at control_ok
  obtain ⟨complete, m', now, later, emits, split, out, same, left, ended, -, last, blocked⟩ :=
    emitOutput_spec ok.ledger.waiting ok.drained
  have wired := ok.wired.sameWires same
  have all_sent : complete = true := by
    by_contra incomplete
    obtain ⟨child, member, running⟩ := blocked (by simpa using incomplete)
    rw [wired.all_ended (same.active_eq.trans control_ok.2) member] at running
    cases running
  obtain rfl := last all_sent
  rw [List.append_nil] at split
  subst split all_sent
  refine ⟨m', emits, same.max_eq.trans ok.max_eq, ok.program_eq, wired, same.drained ok.drained,
    ?_, control_ok.1, fun _ => rfl⟩
  refine ⟨?_, ok.ledger.forked.trans same.length_eq.symm, ?_, left, ?_⟩
  · rw [List.append_nil, ok.ledger.text_eq]
  · rw [out, ok.ledger.out_eq, List.flatMap_append]
  · intro index member
    rcases List.mem_append.1 member with member | member
    · exact same.ended (ok.ledger.ended index member)
    · exact ended index member

theorem step {t : System} (step : Step s t) : ∃ performed' emitted' pending',
      Consistent maxActive program performed' emitted' pending' t := by
  have control_ok := ok.control
  cases step with
  | childWrites chunk found running => exact ⟨_, _, _, ok.childWrites chunk found running⟩
  | childExits found running => exact ⟨_, _, _, ok.childExits found running⟩
  | @print own rest control next =>
    refine ⟨performed ++ [.print own], emitted, pending ++ [.line own], ok.max_eq, ?_, ?_, ?_,
      ok.ledger.print own, ?_, ?_⟩
    · rw [ok.program_eq, next, List.append_assoc]
      rfl
    · exact ok.wired.sameWires ⟨rfl, rfl, rfl, rfl⟩
    · exact ok.drained
    · rw [ControlOk, control]
      trivial
    · intro done
      rw [show s.control = .done from done] at control
      cases control
  | callFork control next =>
    exact ⟨_, _, _, ok.move ⟨_, next⟩ (by simp)⟩
  | callFinish control next =>
    exact ⟨_, _, _, ok.move next (by simp)⟩
  | nobody control none_active =>
    rw [ControlOk, control] at control_ok
    exact ⟨_, _, _, ok.move (Loop.resume_false_ok control_ok fun _ => none_active)
      (Loop.resume_ne_done _ _)⟩
  | pollNothing control some_active blocking quiet =>
    rw [ControlOk, control] at control_ok
    refine ⟨_, _, _, ok.polled (fun _ => ?_) (Loop.resume_ne_done _ _)⟩
    exact Loop.resume_false_ok control_ok fun blocks =>
      Bool.noConfusion (blocking.symm.trans blocks)
  | pollEvents control some_active event =>
    rw [ControlOk, control] at control_ok
    exact ⟨_, _, _, ok.polled (fun ready => ⟨control_ok, ready⟩) (by simp)⟩
  | scanSkip control found quiet =>
    rw [ControlOk, control] at control_ok
    refine ⟨_, _, _, ok.move ⟨control_ok.1, ?_⟩ (by simp)⟩
    intro j slot late
    exact control_ok.2 j slot (by omega)
  | scanData control found event mapped known reads some_data =>
    exact ⟨_, _, _, ok.scanData control found event mapped known reads some_data⟩
  | scanEof control found event mapped known reads =>
    exact ⟨_, _, _, ok.scanEof control found event mapped known reads⟩
  | scanFault control found event unreadable =>
    obtain ⟨-, index, child, -, mapped, known, -, file, -⟩ := ok.event_wired control found event
    rw [unreadable index child mapped known] at file
    cases file
  | scanEnd control past_end =>
    rw [ControlOk, control] at control_ok
    exact ⟨_, _, _, ok.move (Loop.resume_true_ok control_ok.1) (Loop.resume_ne_done _ _)⟩
  | throttle control full =>
    rw [ControlOk, control] at control_ok
    exact ⟨_, _, _, ok.move control_ok (by simp)⟩
  | fork control room next fresh forked =>
    obtain ⟨m', emitted', pending', verified, max_eq, wired, drained, ledger⟩ :=
      verify_spec ok.wired ok.drained ok.ledger fresh room
    cases forked.symm.trans verified
    refine ⟨performed ++ [.verify], emitted', pending', max_eq.trans ok.max_eq, ?_, wired, drained,
      ledger, trivial, by simp⟩
    rw [ok.program_eq, next, List.append_assoc]
    rfl
  | forkFails control room => exact ⟨_, _, _, ok.move trivial (by simp)⟩
  | forkFault control room fresh fault =>
    obtain ⟨m', -, -, verified, -⟩ := verify_spec ok.wired ok.drained ok.ledger fresh room
    rw [fault] at verified
    cases verified
  | join control nobody emits =>
    obtain ⟨m', emits', joined⟩ := ok.join control
    cases emits.symm.trans emits'
    exact ⟨_, _, _, joined⟩
  | joinFault control fault =>
    obtain ⟨m', emits, -⟩ := ok.join control
    rw [ControlOk, control] at control_ok
    rcases fault with active | fault
    · exact absurd control_ok.2 active
    · exact absurd emits (fault m')

end Consistent

theorem start_consistent (maxActiveChildren : Nat) (program : List Command) :
    Consistent maxActiveChildren program [] [] [] (start maxActiveChildren program) where
  max_eq := rfl
  program_eq := rfl
  wired :=
    { sized := List.length_replicate
      paired := rfl
      counted := by
        rw [used_length]
        simp [start, Manager.init, List.countP_replicate]
      slot_wired := by
        intro i slot fd found used
        obtain rfl : slot = {} := List.eq_of_mem_replicate (List.mem_of_getElem? found)
        cases used
      distinct := by
        intro i j slot slot' found _ used
        obtain rfl : slot = {} := List.eq_of_mem_replicate (List.mem_of_getElem? found)
        exact absurd rfl used
      child_wired := by
        intro index child known
        cases known
      file_wired := by
        intro fd index file
        cases file }
  drained := by
    rintro index ⟨child, known, -⟩
    cases known
  ledger :=
    { text_eq := rfl
      forked := rfl
      out_eq := rfl
      waiting := ⟨⟨rfl, Nat.le_refl _, rfl⟩, nofun, List.nodup_nil⟩
      ended := nofun }
  control := trivial
  finished := nofun

theorem reachable_consistent {maxActiveChildren : Nat}
    (reachable : Reachable maxActiveChildren program s) :
    ∃ performed emitted pending,
      Consistent maxActiveChildren program performed emitted pending s := by
  induction reachable with
  | refl => exact ⟨_, _, _, start_consistent maxActiveChildren program⟩
  | tail _ last ih =>
    obtain ⟨_, _, _, ok⟩ := ih
    exact ok.step last

end AliveNext.Util.Parallel
