import ScalarScript.Proofs.Bytecode.Preservation

/-! References to the table under folding. Folding refuses a push without all its operand bytes, and one that
refers to no entry. The table that it holds indices against has grown by the results it made, though, one
for each operator at most, so an index that a run refuses can come to refer to a result. -/
namespace ScalarScript

open Chunk Instruction

/-! ### References -/

/-- If it is a push, the instruction has all its operand bytes and refers to an entry of the table. -/
def Instruction.Refers (table : List Constant) (i : Instruction) : Prop :=
  i.is .pushConst = true → ∃ index, i.index? = some index ∧ index < table.length

/-- A binary operator's opcode. -/
def Instruction.isOperator (i : Instruction) : Bool :=
  match Opcode.ofByte? i.opcode with
  | some (.binary _) => true
  | _ => false

/-- What an operator makes of two constants. -/
def Constant.IsResult (c : Constant) : Prop := ∃ op a b, Operator.combine op a b = .ok c

namespace Instruction

variable {i : Instruction} {table : List Constant}

theorem Refers.append (h : i.Refers table) (rest : List Constant) : i.Refers (table ++ rest) := by
  intro hp
  obtain ⟨index, hi, hlt⟩ := h hp
  exact ⟨index, hi, by simp; omega⟩

theorem constant?_eq_ok {found : Option Constant} (h : i.constant? table = .ok found) :
    i.Refers table ∧ ∀ c, found = some c → c ∈ table := by
  unfold constant? at h
  split at h
  · split at h
    · rename_i c hc
      cases h
      obtain ⟨index, hi, hc⟩ := Option.bind_eq_some_iff.1 hc
      refine ⟨fun _ => ⟨index, hi, (List.getElem?_eq_some_iff.1 hc).1⟩, fun d hd => ?_⟩
      cases hd
      exact List.mem_of_getElem? hc
    · cases h
  · rename_i hp
    cases h
    exact ⟨fun h => absurd h hp, fun c hc => nomatch hc⟩

theorem refers_push {index : ℕ} (hi : index < 65536) {c : Constant} (hc : table[index]? = some c) :
    (push index).Refers table :=
  fun _ => ⟨index, index?_push hi, (List.getElem?_eq_some_iff.1 hc).1⟩

theorem refers_of_isOperator (h : i.isOperator = true) : i.Refers table := by
  intro hp
  rw [isOperator, is_iff.1 hp, Opcode.ofByte?_toByte] at h
  cases h

theorem constant?_eq_error {fault : Fault} (h : i.constant? table = .error fault) :
    fault = .indexOutOfRange ∧ ¬i.Refers table := by
  unfold constant? at h
  split at h
  · rename_i hp
    split at h <;> cases h
    rename_i hn
    refine ⟨rfl, fun hr => ?_⟩
    obtain ⟨index, hi, hlt⟩ := hr hp
    rw [hi, Option.bind_some, List.getElem?_eq_none_iff] at hn
    omega
  · cases h

end Instruction

namespace Chunk

/-! ### Folding steps -/

/-- What folding of a source has come to. The table has results of operators at its end, no more than there were
operators. An instruction of the source is still there or refers to the table, and so does any that is new. -/
structure Examined (chunk : Chunk) (source : List Instruction) (after : Chunk) (done : List Instruction) : Prop where
  results : ∃ results, after.constants = chunk.constants ++ results ∧
    results.length ≤ source.countP (·.isOperator) ∧ ∀ c ∈ results, c.IsResult
  kept : ∀ i ∈ source, i ∈ done ∨ i.Refers after.constants
  made : ∀ i ∈ done, i ∈ source ∨ i.Refers after.constants

variable {chunk middle after : Chunk} {source done next : List Instruction} {i : Instruction}

theorem Examined.nil (chunk : Chunk) : Examined chunk [] chunk [] where
  results := ⟨[], (List.append_nil _).symm, Nat.le_refl _, List.forall_mem_nil _⟩
  kept := List.forall_mem_nil _
  made := List.forall_mem_nil _

theorem Examined.keep (h : Examined chunk source middle done) (i : Instruction) :
    Examined chunk (source ++ [i]) middle (i :: done) where
  results := by
    obtain ⟨results, ht, hl, hr⟩ := h.results
    exact ⟨results, ht, hl.trans (by simp), hr⟩
  kept j hj := by
    obtain hj | hj := List.mem_append.1 hj
    · exact (h.kept j hj).imp_left (List.mem_cons_of_mem i)
    · exact .inl (List.mem_singleton.1 hj ▸ List.mem_cons_self)
  made j hj := by
    obtain rfl | hj := List.mem_cons.1 hj
    · exact .inl (List.mem_append_right _ List.mem_cons_self)
    · exact (h.made j hj).imp_left (List.mem_append_left _)

/-- Two instructions that refer to the table go for one that does, and the table grows by a result or stays. -/
theorem Examined.fold {right left new : Instruction} {before : List Instruction} {c : Constant}
    (h : Examined chunk source middle (right :: left :: before)) (hi : i.isOperator = true)
    (hl : left.Refers middle.constants) (hr : right.Refers middle.constants) (hc : c.IsResult)
    (ha : after = middle ∨ after = { middle with constants := middle.constants ++ [c] })
    (hn : new.Refers after.constants) : Examined chunk (source ++ [i]) after (new :: before) := by
  obtain ⟨rest, hrest, hlen, hres⟩ : ∃ rest, after.constants = middle.constants ++ rest ∧ rest.length ≤ 1 ∧
      ∀ d ∈ rest, d.IsResult := by
    obtain rfl | rfl := ha
    · exact ⟨[], (List.append_nil _).symm, Nat.zero_le _, List.forall_mem_nil _⟩
    · exact ⟨[c], rfl, Nat.le_refl _, List.forall_mem_singleton.2 hc⟩
  have hgrown {j : Instruction} (hj : j.Refers middle.constants) : j.Refers after.constants := hrest ▸ hj.append rest
  obtain ⟨results, ht, hcount, hresults⟩ := h.results
  constructor
  · refine ⟨results ++ rest, by rw [hrest, ht, List.append_assoc], ?_, List.forall_mem_append.2 ⟨hresults, hres⟩⟩
    rw [List.length_append, List.countP_append, List.countP_singleton, if_pos hi]
    exact Nat.add_le_add hcount hlen
  · -- The two that went were looked up, so they refer to the table without being there.
    intro j hj
    obtain hj | hj := List.mem_append.1 hj
    · obtain hm | hm := h.kept j hj
      · obtain rfl | hm := List.mem_cons.1 hm
        · exact .inr (hgrown hr)
        · obtain rfl | hm := List.mem_cons.1 hm
          · exact .inr (hgrown hl)
          · exact .inl (List.mem_cons_of_mem _ hm)
      · exact .inr (hgrown hm)
    · rw [List.mem_singleton.1 hj]
      exact .inr (refers_of_isOperator hi)
  · intro j hj
    obtain rfl | hj := List.mem_cons.1 hj
    · exact .inr hn
    · obtain hm | hm := h.made j (List.mem_cons_of_mem _ (List.mem_cons_of_mem _ hj))
      · exact .inl (List.mem_append_left _ hm)
      · exact .inr (hgrown hm)

/-- Every folding step keeps the account. -/
theorem Examined.foldStep (h : Examined chunk source middle done) (hs : foldStep done i middle = .ok next after) :
    Examined chunk (source ++ [i]) after next := by
  obtain ⟨rfl, rfl⟩ | ⟨op, right, left, before, a, b, c, index, ho, rfl, hl, hr, hc, hadd, rfl⟩ := foldStep_ok hs
  · exact h.keep i
  · have hi : i.isOperator = true := by rw [isOperator, ho]
    obtain ⟨hentry, hindex, htable⟩ := addOperand_ok hadd
    exact h.fold hi (constant?_eq_ok hl).1 (constant?_eq_ok hr).1 ⟨op, a, b, hc⟩ htable (refers_push hindex hentry)

theorem Examined.foldlM {instructions : List Instruction} (h : Examined chunk source middle done)
    (hf : instructions.foldlM Chunk.foldStep done middle = .ok next after) :
    Examined chunk (source ++ instructions) after next := by
  -- The source so far grows at its end, by the instruction that the next step looks at.
  induction instructions generalizing source middle done with
  | nil =>
    cases hf
    rwa [List.append_nil]
  | cons i rest ih =>
    obtain ⟨between, state, hs, hrest⟩ := foldlM_foldStep_cons.1 hf
    rw [List.append_cons]
    exact ih (h.foldStep hs) hrest

theorem Examined.keyed (h : Examined chunk source middle done) (hk : Keyed chunk.constants) :
    Keyed middle.constants := by
  obtain ⟨results, ht, -, hr⟩ := h.results
  rw [ht, keyed_append]
  refine ⟨hk, fun c hc => ?_⟩
  obtain ⟨op, a, b, hab⟩ := hr c hc
  exact (Operator.combine_ok hab).1

/-- An instruction that does not refer to the table is of the source, and did not refer to the table before. -/
theorem Examined.dangling (h : Examined chunk source middle done) {j : Instruction} (hj : j ∈ done)
    (hn : ¬j.Refers middle.constants) : j ∈ source ∧ ¬j.Refers chunk.constants := by
  obtain ⟨results, ht, -⟩ := h.results
  exact ⟨(h.made j hj).resolve_right hn, fun hr => hn (ht ▸ hr.append results)⟩

/-! ### Refusals -/

theorem addOperand_eq_error {c : Constant} (hc : c.HasKey) (hk : Keyed middle.constants) {fault : Fault}
    (h : addOperand c middle = .error fault after) :
    ∃ index, fault = .tooManyConstants index ∧ maxIndex < middle.constants.length := by
  rw [addOperand_of_keyed hc hk] at h
  simp only at h
  split at h <;> cases h
  exact ⟨_, rfl, lt_of_lt_of_le ‹_› List.idxOf_le_length⟩

/-- A folding step fails for an instruction before it that refers to nothing, or for want of room for a result. -/
theorem foldStep_eq_error (hk : Keyed middle.constants) {fault : Fault}
    (h : Chunk.foldStep done i middle = .error fault after) :
    (fault = .indexOutOfRange ∧ ∃ j ∈ done, ¬j.Refers middle.constants) ∨
      ∃ index, fault = .tooManyConstants index ∧ i.isOperator = true ∧ maxIndex < middle.constants.length := by
  by_cases hw : ∃ op right left before, Opcode.ofByte? i.opcode = some (.binary op) ∧ done = right :: left :: before
  · obtain ⟨op, right, left, before, ho, rfl⟩ := hw
    rw [foldStep_window ho] at h
    split at h
    · rename_i hl
      cases h
      obtain ⟨rfl, hn⟩ := constant?_eq_error hl
      exact .inl ⟨rfl, left, by simp, hn⟩
    · rename_i hr
      cases h
      obtain ⟨rfl, hn⟩ := constant?_eq_error hr
      exact .inl ⟨rfl, right, by simp, hn⟩
    · rename_i a b hl hr
      split at h
      · rename_i c hc
        split at h
        · cases h
        · rename_i hadd
          cases h
          obtain ⟨index, rfl, hlt⟩ := addOperand_eq_error (Operator.combine_ok hc).1 hk hadd
          exact .inr ⟨index, rfl, by rw [isOperator, ho], hlt⟩
      · rename_i hc
        have ha : a.HasKey := hk a ((constant?_eq_ok hl).2 a rfl)
        have hb : b.HasKey := hk b ((constant?_eq_ok hr).2 b rfl)
        rw [Operator.inLanguage_combine ha hb hc, if_pos rfl] at h
        cases h
    · cases h
  · rw [foldStep_of_no_window fun op right left before ho hd => hw ⟨op, right, left, before, ho, hd⟩] at h
    cases h

/-- Steps one after another fail at one of them. -/
theorem exists_failed_foldStep {instructions : List Instruction} {fault : Fault}
    (h : instructions.foldlM Chunk.foldStep done chunk = .error fault after) :
    ∃ source i rest between middle, instructions = source ++ i :: rest ∧
      source.foldlM Chunk.foldStep done chunk = .ok between middle ∧
      Chunk.foldStep between i middle = .error fault after := by
  induction instructions generalizing chunk done with
  | nil => cases h
  | cons i rest ih =>
    simp only [List.foldlM_cons, bind, EStateM.bind] at h
    cases hs : Chunk.foldStep done i chunk with
    | error f state =>
      simp only [hs] at h
      cases h
      exact ⟨[], i, rest, done, chunk, rfl, rfl, hs⟩
    | ok next state =>
      simp only [hs] at h
      obtain ⟨source, j, later, between, middle, rfl, hf, hj⟩ := ih h
      exact ⟨i :: source, j, later, between, middle, rfl, foldlM_foldStep_cons.2 ⟨next, state, hs, hf⟩, hj⟩

theorem withoutUnused_eq_error {fault : Fault} (h : chunk.withoutUnused = .error fault) :
    fault = .indexOutOfRange ∧ ∃ i ∈ decode chunk.code, ¬i.Refers chunk.constants := by
  obtain h | ⟨used, hu, h⟩ := bind_eq_error_iff.1 h
  · obtain h | ⟨indices, -, h⟩ := bind_eq_error_iff.1 h
    · obtain ⟨i, hm, hi⟩ := exists_of_mapM_eq_error h
      obtain ⟨hm, hp⟩ := List.mem_filter.1 hm
      cases hx : i.index? with
      | some index =>
        rw [hx] at hi
        cases hi
      | none =>
        rw [hx] at hi
        cases hi
        refine ⟨rfl, i, hm, fun hr => ?_⟩
        obtain ⟨index, hindex, -⟩ := hr hp
        cases hx.symm.trans hindex
    · cases h
  · obtain h | ⟨constants, -, h⟩ := bind_eq_error_iff.1 h
    · obtain ⟨index, hm, hi⟩ := exists_of_mapM_eq_error h
      obtain ⟨indices, hindices, rfl⟩ := usedIndices_eq_ok_iff.1 hu
      obtain ⟨i, hpush, hx⟩ := exists_right_of_forall₂ hindices.flip (List.mem_eraseDups.1 hm)
      obtain ⟨hmem, hp⟩ := List.mem_filter.1 hpush
      cases hc : chunk.constants[index]? with
      | some c =>
        rw [hc] at hi
        cases hi
      | none =>
        rw [hc] at hi
        cases hi
        refine ⟨rfl, i, hmem, fun hr => ?_⟩
        obtain ⟨other, ho, hlt⟩ := hr hp
        cases hx.symm.trans ho
        exact absurd hlt (Nat.not_lt.2 (List.getElem?_eq_none_iff.1 hc))
    · cases h

/-! ### Folding -/

theorem refers_of_withoutUnused {trimmed : Chunk} (h : chunk.withoutUnused = .ok trimmed) :
    ∀ i ∈ decode chunk.code, i.Refers chunk.constants := by
  obtain ⟨used, hu, constants, hc, -⟩ := withoutUnused_eq_ok_iff.1 h
  intro i hi hp
  obtain ⟨index, hm, hx⟩ := (usedIndices_ok hu).2 i hi hp
  obtain ⟨c, -, hindex⟩ := exists_right_of_forall₂ hc hm
  exact ⟨index, hx, (List.getElem?_eq_some_iff.1 hindex).1⟩

theorem decode_folded {folded : Chunk} (h : (decode chunk.code).foldlM Chunk.foldStep [] chunk = .ok done folded) :
    decode (assemble done.reverse) = done.reverse :=
  decode_assemble (folded_foldlM (stream_decode chunk.code) (List.forall_mem_nil _) h).1

/-- Over a table that can be written, folding fails for a push that refers to nothing, or for want of room. -/
theorem foldConstants_eq_error (hk : Keyed chunk.constants) {fault : Fault}
    (h : foldConstants chunk = .error fault after) :
    (fault = .indexOutOfRange ∧ ∃ i ∈ decode chunk.code, ¬i.Refers chunk.constants) ∨
      ∃ index, fault = .tooManyConstants index ∧
        maxIndex + 1 < chunk.constants.length + (decode chunk.code).countP (·.isOperator) := by
  rw [foldConstants_eq] at h
  split at h
  · rename_i hf
    cases h
    obtain ⟨source, i, rest, between, middle, hd, hs, hi⟩ := exists_failed_foldStep hf
    have hex := (Examined.nil chunk).foldlM hs
    rw [List.nil_append] at hex
    rw [hd]
    obtain ⟨rfl, j, hj, hn⟩ | ⟨index, rfl, hop, hlt⟩ := foldStep_eq_error (hex.keyed hk) hi
    · obtain ⟨hj, hn⟩ := hex.dangling hj hn
      exact .inl ⟨rfl, j, List.mem_append_left _ hj, hn⟩
    · obtain ⟨results, ht, hcount, -⟩ := hex.results
      rw [ht, List.length_append] at hlt
      refine .inr ⟨index, rfl, ?_⟩
      rw [List.countP_append, List.countP_cons, if_pos hop]
      omega
  · rename_i done folded hf
    split at h
    · rename_i hu
      cases h
      obtain ⟨rfl, i, hi, hn⟩ := withoutUnused_eq_error hu
      rw [decode_folded hf, List.mem_reverse] at hi
      have hex := (Examined.nil chunk).foldlM hf
      exact .inl ⟨rfl, i, hex.dangling hi hn⟩
    · cases h

/-- Folding accepts a chunk only if every push is complete and refers to the table, or to one of the results that
were put after it, one for an operator at most. Over a table that can be written it refuses a chunk only for a
push that does not refer to the table as it was, or for want of room. -/
theorem foldConstants_references (chunk : Chunk) :
    (∀ trimmed, foldConstants chunk = .ok () trimmed →
      ∃ results, results.length ≤ (decode chunk.code).countP (·.isOperator) ∧ (∀ c ∈ results, c.IsResult) ∧
        ∀ i ∈ decode chunk.code, i.Refers (chunk.constants ++ results)) ∧
    (Keyed chunk.constants → ∀ fault after, foldConstants chunk = .error fault after →
      (fault = .indexOutOfRange ∧ ∃ i ∈ decode chunk.code, ¬i.Refers chunk.constants) ∨
        ∃ index, fault = .tooManyConstants index ∧
          maxIndex + 1 < chunk.constants.length + (decode chunk.code).countP (·.isOperator)) := by
  refine ⟨fun trimmed h => ?_, fun hk fault after h => foldConstants_eq_error hk h⟩
  obtain ⟨done, folded, hf, ht⟩ := foldConstants_eq_ok_iff.1 h
  have hex := (Examined.nil chunk).foldlM hf
  obtain ⟨results, htable, hlen, hres⟩ := hex.results
  refine ⟨results, hlen, hres, fun i hi => ?_⟩
  rw [← htable]
  obtain hm | hm := hex.kept i hi
  · refine refers_of_withoutUnused ht i ?_
    rw [decode_folded hf]
    exact List.mem_reverse.2 hm
  · exact hm

/-- A run fails at the third push, whose entry is missing. Folding makes the entry out of the first two, and the
run that comes after it succeeds. The same push alone is refused. -/
theorem foldConstants_mends_reference :
    ∃ chunk trimmed : Chunk, chunk = ⟨[5, 0, 0, 5, 0, 1, 0x60, 5, 0, 2, 0xff],
        [⟨.string, .string "a"⟩, ⟨.string, .string "b"⟩]⟩ ∧
      push 2 ∈ decode chunk.code ∧ ¬(push 2).Refers chunk.constants ∧ chunk.run = .error (.constantOutOfRange 2) ∧
      foldConstants chunk = .ok () trimmed ∧ trimmed.run = .ok (.ofString "ab") ∧
      ∃ after, foldConstants { chunk with code := [5, 0, 2, 0xff] } = .error .indexOutOfRange after := by
  refine ⟨_, ⟨[5, 0, 0, 5, 0, 0, 0xff], [⟨.string, .string "ab"⟩]⟩, rfl, by decide, ?_, by cbv, by cbv, by cbv, _, by cbv⟩
  intro h
  obtain ⟨index, hx, hlt⟩ := h rfl
  cases hx
  exact absurd hlt (by decide)

end Chunk
end ScalarScript
