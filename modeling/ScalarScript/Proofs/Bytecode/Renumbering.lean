import ScalarScript.Proofs.Bytecode.References
import ScalarScript.Proofs.Bytecode.Session

/-! Removal of unused constants. It is refused if a push does not refer to the table, and then nothing has
changed. Otherwise the instructions stay what and where they are and push what they pushed, over a table of
the entries that were referred to, each once and in order of first reference; doing it again changes nothing. -/
namespace ScalarScript

open Chunk Instruction

/-! ### Order of first use -/

/-- The slots are what the references refer to, each once, in order of first reference. -/
structure FirstUses (slots references : List ℕ) : Prop where
  mem_iff : ∀ index, index ∈ slots ↔ index ∈ references
  ordered : slots.Pairwise fun first second => references.idxOf first < references.idxOf second

theorem FirstUses.nodup {slots references : List ℕ} (h : FirstUses slots references) : slots.Nodup :=
  h.ordered.imp fun {first second} (hlt : references.idxOf first < references.idxOf second) (he : first = second) =>
    Nat.lt_irrefl _ (he ▸ hlt)

theorem firstUses_eraseDups (references : List ℕ) : FirstUses references.eraseDups references := by
  -- From the end of the references on: a last one that is new comes after all others.
  induction references using List.reverseRecOn with
  | nil => exact ⟨fun _ => Iff.rfl, .nil⟩
  | append_singleton before last ih =>
    refine ⟨fun index => List.mem_eraseDups, ?_⟩
    have hplace {index : ℕ} (hi : index ∈ before.eraseDups) : (before ++ [last]).idxOf index = before.idxOf index :=
      List.idxOf_append_of_mem (List.mem_eraseDups.1 hi)
    have hbefore : before.eraseDups.Pairwise fun first second =>
        (before ++ [last]).idxOf first < (before ++ [last]).idxOf second := by
      refine ih.ordered.imp_of_mem fun hf hs hlt => ?_
      rwa [hplace hf, hplace hs]
    rw [eraseDups_concat, extend]
    split
    · exact hbefore
    · rename_i hnew
      refine List.pairwise_append.2 ⟨hbefore, List.pairwise_singleton _ _, fun index hi other ho => ?_⟩
      rw [List.mem_eraseDups] at hnew
      rw [List.mem_singleton.1 ho, hplace hi, List.idxOf_append_of_notMem hnew]
      exact Nat.lt_add_right _ (List.idxOf_lt_length_of_mem (List.mem_eraseDups.1 hi))

theorem FirstUses.eq_eraseDups {slots references : List ℕ} (h : FirstUses slots references) :
    slots = references.eraseDups := by
  have h' := firstUses_eraseDups references
  refine List.Perm.eq_of_pairwise (fun _ _ _ _ hlt hgt => absurd hgt (Nat.lt_asymm hlt)) h.ordered h'.ordered ?_
  exact (List.perm_ext_iff_of_nodup h.nodup h'.nodup).2 fun index => (h.mem_iff index).trans (h'.mem_iff index).symm

/-- Named by their places among the slots, the references are first to the first slot, then to the next, and so on. -/
theorem FirstUses.map_idxOf {slots references : List ℕ} (h : FirstUses slots references) :
    FirstUses (List.range slots.length) (references.map (slots.idxOf ·)) := by
  have hmap : (references.map (slots.idxOf ·)).eraseDups = slots.map (slots.idxOf ·) := by
    rw [h.eq_eraseDups, eraseDups_map fun first hf second _ he => ?_]
    exact (List.idxOf_inj (List.mem_eraseDups.2 hf)).1 he.symm |>.symm
  have hrange : slots.map (slots.idxOf ·) = List.range slots.length := by
    refine List.ext_getElem (by simp) fun k hk _ => ?_
    rw [List.getElem_map, h.nodup.idxOf_getElem, List.getElem_range]
  rw [← hrange, ← hmap]
  exact firstUses_eraseDups _

/-! ### References -/

/-- The indices that the pushes carry, first to last. -/
def references (instructions : List Instruction) : List ℕ :=
  (instructions.filter (·.is .pushConst)).filterMap Instruction.index?

theorem references_append (first second : List Instruction) :
    references (first ++ second) = references first ++ references second := by
  rw [references, List.filter_append, List.filterMap_append, ← references, ← references]

theorem references_cons_of_push {i : Instruction} {index : ℕ} (hp : i.is .pushConst = true)
    (hi : i.index? = some index) (rest : List Instruction) : references (i :: rest) = index :: references rest := by
  rw [references, List.filter_cons_of_pos (by exact hp), List.filterMap_cons_some hi, references]

theorem references_cons_of_not_push {i : Instruction} (hp : i.is .pushConst = false) (rest : List Instruction) :
    references (i :: rest) = references rest := by
  rw [references, List.filter_cons_of_neg (by simp [hp]), references]

theorem mem_references {instructions : List Instruction} {index : ℕ} :
    index ∈ references instructions ↔ ∃ i ∈ instructions, i.is .pushConst = true ∧ i.index? = some index := by
  simp only [references, List.mem_filterMap, List.mem_filter, and_assoc]

section Refers

variable {table : List Constant} {instructions : List Instruction} (hr : ∀ i ∈ instructions, i.Refers table)
include hr

theorem forall₂_references :
    List.Forall₂ (fun i index => i.index? = some index) (instructions.filter (·.is .pushConst))
      (references instructions) := by
  induction instructions with
  | nil => exact .nil
  | cons i rest ih =>
    obtain ⟨hi, hrest⟩ := List.forall_mem_cons.1 hr
    cases hp : i.is .pushConst with
    | true =>
      obtain ⟨index, hx, -⟩ := hi hp
      rw [List.filter_cons_of_pos (by exact hp), references_cons_of_push hp hx]
      exact .cons hx (ih hrest)
    | false =>
      rw [List.filter_cons_of_neg (by simp [hp]), references_cons_of_not_push hp]
      exact ih hrest

theorem usedIndices_of_refers : usedIndices instructions = .ok (references instructions).eraseDups :=
  usedIndices_eq_ok_iff.2 ⟨references instructions, forall₂_references hr, rfl⟩

/-- Instructions that refer to a table are not cut short. -/
theorem Stream.whole_of_refers (hs : Stream instructions) : ∀ i ∈ instructions, i.Whole := by
  refine hs.whole_of_index? fun i hi hp => ?_
  obtain ⟨index, hx, -⟩ := hr i hi hp
  simp [hx]

end Refers

/-! ### Renumbered instructions -/

namespace Instruction

theorem opcode_renumber (used : List ℕ) (i : Instruction) : (i.renumber used).opcode = i.opcode := by
  unfold renumber
  split
  · rename_i hp _
    exact (is_iff.1 hp).symm
  · rfl

theorem is_renumber (used : List ℕ) (i : Instruction) (op : Opcode) : (i.renumber used).is op = i.is op := by
  rw [Instruction.is, opcode_renumber, Instruction.is]

theorem index?_renumber {used : List ℕ} (hl : used.length ≤ 65536) {i : Instruction} {index : ℕ}
    (hp : i.is .pushConst = true) (hx : i.index? = some index) (hm : index ∈ used) :
    (i.renumber used).index? = some (used.idxOf index) := by
  simp only [renumber, hp, hx]
  exact index?_push ((List.idxOf_lt_length_of_mem hm).trans_le hl)

/-- An instruction's length hangs on its opcode alone. -/
theorem Whole.length_bytes {i : Instruction} (h : i.Whole) : i.bytes.length = if i.is .pushConst then 3 else 1 := by
  rw [bytes, List.length_cons, h]
  split <;> rfl

end Instruction

theorem references_map_renumber {used : List ℕ} (hl : used.length ≤ 65536) {instructions : List Instruction}
    (hu : ∀ i ∈ instructions, i.is .pushConst = true → ∃ index ∈ used, i.index? = some index) :
    references (instructions.map (·.renumber used)) = (references instructions).map (used.idxOf ·) := by
  induction instructions with
  | nil => rfl
  | cons i rest ih =>
    obtain ⟨hi, hrest⟩ := List.forall_mem_cons.1 hu
    rw [List.map_cons]
    cases hp : i.is .pushConst with
    | true =>
      obtain ⟨index, hm, hx⟩ := hi hp
      rw [references_cons_of_push hp hx, List.map_cons,
        references_cons_of_push (by rw [is_renumber, hp]) (index?_renumber hl hp hx hm), ih hrest]
    | false => rw [references_cons_of_not_push hp, references_cons_of_not_push (by rw [is_renumber, hp]), ih hrest]

/-- Renumbered instructions stay where they are. -/
theorem decodeFrom_map_renumber {used : List ℕ} {instructions : List Instruction}
    (hw : ∀ i ∈ instructions, i.Whole) (hw' : ∀ i ∈ instructions, (i.renumber used).Whole) (start : ℕ) :
    decodeFrom start (assemble (instructions.map (·.renumber used))) =
      (decodeFrom start (assemble instructions)).map fun entry => (entry.1, entry.2.renumber used) := by
  induction instructions generalizing start with
  | nil => rfl
  | cons i rest ih =>
    obtain ⟨hi, hrest⟩ := List.forall_mem_cons.1 hw
    obtain ⟨hi', hrest'⟩ := List.forall_mem_cons.1 hw'
    change decodeFrom start ((i.renumber used).bytes ++ assemble (rest.map (·.renumber used))) =
      (decodeFrom start (i.bytes ++ assemble rest)).map _
    rw [decodeFrom_bytes_append hi', decodeFrom_bytes_append hi, List.map_cons, hi'.length_bytes, is_renumber,
      ← hi.length_bytes, ih hrest hrest']

/-! ### Trimming -/

namespace Chunk

/-- The slots of the table that are referred to, in order of first reference. -/
def slots (chunk : Chunk) : List ℕ := (references (decode chunk.code)).eraseDups

/-- Every entry of the table is referred to, and the entries are numbered in order of first reference. -/
def Compact (chunk : Chunk) : Prop := FirstUses (List.range chunk.constants.length) (references (decode chunk.code))

variable {chunk trimmed : Chunk}

section Trimmed

variable (h : chunk.withoutUnused = .ok trimmed)
include h

theorem withoutUnused_eq_ok :
    List.Forall₂ (fun slot c => chunk.constants[slot]? = some c) chunk.slots trimmed.constants ∧
      trimmed.code = assemble ((decode chunk.code).map (·.renumber chunk.slots)) := by
  obtain ⟨used, hu, constants, hc, rfl⟩ := withoutUnused_eq_ok_iff.1 h
  cases hu.symm.trans (usedIndices_of_refers (refers_of_withoutUnused h))
  exact ⟨hc, rfl⟩

theorem whole_of_withoutUnused : ∀ i ∈ decode chunk.code, i.Whole :=
  Stream.whole_of_refers (refers_of_withoutUnused h) (stream_decode chunk.code)

theorem slots_of_withoutUnused :
    chunk.slots.length ≤ 65536 ∧
      ∀ i ∈ decode chunk.code, i.is .pushConst = true → ∃ slot ∈ chunk.slots, i.index? = some slot :=
  usedIndices_ok (usedIndices_of_refers (refers_of_withoutUnused h))

theorem whole_trimmed : ∀ i ∈ decode chunk.code, (i.renumber chunk.slots).Whole := by
  obtain ⟨hl, hu⟩ := slots_of_withoutUnused h
  exact fun i hi => whole_renumber (withoutUnused_eq_ok h).1 hl (whole_of_withoutUnused h i hi) (hu i hi)

theorem decode_trimmed : decode trimmed.code = (decode chunk.code).map (·.renumber chunk.slots) := by
  rw [(withoutUnused_eq_ok h).2, decode_assemble (Stream.of_whole (List.forall_mem_map.2 (whole_trimmed h)))]

theorem references_trimmed :
    references (decode trimmed.code) = (references (decode chunk.code)).map (chunk.slots.idxOf ·) := by
  obtain ⟨hl, hu⟩ := slots_of_withoutUnused h
  rw [decode_trimmed h, references_map_renumber hl hu]

theorem compact_trimmed : trimmed.Compact := by
  rw [Compact, references_trimmed h, ← (withoutUnused_eq_ok h).1.length_eq]
  exact (firstUses_eraseDups _).map_idxOf

theorem constant?_trimmed {i : Instruction} (hi : i ∈ decode chunk.code) :
    (i.renumber chunk.slots).constant? trimmed.constants = i.constant? chunk.constants := by
  obtain ⟨hl, hu⟩ := slots_of_withoutUnused h
  obtain ⟨hp, he⟩ | ⟨index, hlt, other, ho, c, rfl, hindex, he, hother⟩ :=
    renumber_cases (withoutUnused_eq_ok h).1 hl (whole_of_withoutUnused h i hi) (hu i hi)
  · simp only [he, constant?, hp, Bool.false_eq_true, if_false]
  · rw [he, constant?_push ho hother, constant?_push hlt hindex]

theorem refers_trimmed : ∀ i ∈ decode trimmed.code, i.Refers trimmed.constants := by
  obtain ⟨hl, hu⟩ := slots_of_withoutUnused h
  rw [decode_trimmed h]
  refine List.forall_mem_map.2 fun i hi hp => ?_
  obtain ⟨other, ho, c, he, hother⟩ :=
    pushes_renumber (withoutUnused_eq_ok h).1 hl (whole_of_withoutUnused h i hi) (hu i hi) hp
  exact he ▸ refers_push ho hother (is_push other)

end Trimmed

/-- A compact chunk is trimmed to itself. -/
theorem Compact.withoutUnused_eq (hc : chunk.Compact) (hr : ∀ i ∈ decode chunk.code, i.Refers chunk.constants) :
    chunk.withoutUnused = .ok chunk := by
  have hslots : List.range chunk.constants.length = chunk.slots := hc.eq_eraseDups
  have hstay (i : Instruction) (hi : i ∈ decode chunk.code) : i.renumber chunk.slots = i := by
    cases hp : i.is .pushConst with
    | false => simp only [renumber, hp]
    | true =>
      obtain ⟨index, hx, hlt⟩ := hr i hi hp
      obtain ⟨other, ho, rfl, hx'⟩ := exists_index_of_whole
        (Stream.whole_of_refers hr (stream_decode chunk.code) i hi) hp
      cases hx.symm.trans hx'
      have hidx := List.nodup_range.idxOf_getElem index (by simpa using hlt)
      rw [List.getElem_range] at hidx
      simp only [renumber, hp, hx, ← hslots, hidx]
  refine withoutUnused_eq_ok_iff.2 ⟨chunk.slots, usedIndices_of_refers hr, chunk.constants, ?_, ?_⟩
  · rw [← hslots, List.forall₂_iff_get]
    refine ⟨List.length_range, fun k _ hk => ?_⟩
    simp
  · rw [List.map_congr_left hstay, List.map_id', assemble_decode]

/-- The chunk over only those slots of its table that are referred to, in order of first reference. Its
instructions are what and where they were and push the constants that they pushed: each push refers to the new
place of the very slot that it referred to. -/
structure TrimsTo (chunk trimmed : Chunk) : Prop where
  instructions : List.Forall₂
    (fun before after : ℕ × Instruction => after.1 = before.1 ∧ after.2.opcode = before.2.opcode ∧
      after.2.constant? trimmed.constants = before.2.constant? chunk.constants)
    (decodeFrom 0 chunk.code) (decodeFrom 0 trimmed.code)
  slots : ∃ slots, FirstUses slots (references (decode chunk.code)) ∧
    List.Forall₂ (fun slot c => chunk.constants[slot]? = some c) slots trimmed.constants ∧
    List.Forall₂ (fun before after => slots[after]? = some before) (references (decode chunk.code))
      (references (decode trimmed.code))
  size : trimmed.constants.length ≤ maxIndex + 1
  runs : trimmed.RunsLike chunk
  stable : dropUnused trimmed = .ok () trimmed

theorem dropUnused_eq (chunk : Chunk) :
    dropUnused chunk =
      match chunk.withoutUnused with
      | .ok trimmed => .ok () trimmed
      | .error fault => .error fault chunk := by
  simp only [dropUnused, bind, EStateM.bind, get, getThe, MonadStateOf.get, EStateM.get]
  cases chunk.withoutUnused with
  | ok trimmed => rfl
  | error fault => rfl

theorem trimsTo_of_withoutUnused (h : chunk.withoutUnused = .ok trimmed) : chunk.TrimsTo trimmed := by
  obtain ⟨hentries, hcode⟩ := withoutUnused_eq_ok h
  constructor
  · have hd := decodeFrom_map_renumber (whole_of_withoutUnused h) (whole_trimmed h) 0
    rw [assemble_decode, ← hcode] at hd
    rw [hd, List.forall₂_map_right_iff, List.forall₂_same]
    intro entry he
    have hi : entry.2 ∈ decode chunk.code := List.mem_map_of_mem he
    exact ⟨rfl, opcode_renumber _ _, constant?_trimmed h hi⟩
  · refine ⟨chunk.slots, firstUses_eraseDups _, hentries, ?_⟩
    rw [references_trimmed h, List.forall₂_map_right_iff, List.forall₂_same]
    exact fun index hi => List.getElem?_idxOf (List.mem_eraseDups.2 hi)
  · rw [← hentries.length_eq]
    exact (slots_of_withoutUnused h).1
  · have h' : withoutUnused ⟨assemble (decode chunk.code), chunk.constants⟩ = .ok trimmed := by rwa [assemble_decode]
    obtain ⟨-, -, hexecute⟩ := withoutUnused_ok (stream_decode chunk.code) h'
    exact runsLike_of_execute fun stack => congrArg settle (hexecute stack)
  · rw [dropUnused_eq, (compact_trimmed h).withoutUnused_eq (refers_trimmed h)]

/-- Removal of unused constants is refused, and nothing has changed, just where a push is cut short or beyond the
table. Elsewhere it trims the chunk. -/
theorem dropUnused_trims (chunk : Chunk) :
    ((∃ i ∈ decode chunk.code, ¬i.Refers chunk.constants) ∧ dropUnused chunk = .error .indexOutOfRange chunk) ∨
      ((∀ i ∈ decode chunk.code, i.Refers chunk.constants) ∧
        ∃ trimmed, dropUnused chunk = .ok () trimmed ∧ chunk.TrimsTo trimmed) := by
  rw [dropUnused_eq]
  cases h : chunk.withoutUnused with
  | ok trimmed => exact .inr ⟨refers_of_withoutUnused h, trimmed, rfl, trimsTo_of_withoutUnused h⟩
  | error fault =>
    obtain ⟨rfl, hn⟩ := withoutUnused_eq_error h
    exact .inl ⟨hn, rfl⟩

/-- The two slots with the same text stay apart. -/
example : dropUnused ⟨[5, 0, 2, 5, 0, 0, 5, 0, 2, 0x60],
    [⟨.string, .string "a"⟩, ⟨.string, .string "b"⟩, ⟨.string, .string "a"⟩]⟩ =
    .ok () ⟨[5, 0, 0, 5, 0, 1, 5, 0, 0, 0x60], [⟨.string, .string "a"⟩, ⟨.string, .string "a"⟩]⟩ := by cbv

end Chunk
end ScalarScript
