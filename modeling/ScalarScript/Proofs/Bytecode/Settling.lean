import ScalarScript.Proofs.Bytecode.Renumbering

/-! Folding settles in one pass. In what it leaves, no operator stands over two constants that combine, and
neither the results that come after them in the table nor the renumbering of the constants lets one combine: what
failed fails again. So a second pass folds nothing, and finds a compact table to trim. -/
namespace ScalarScript

open Chunk Instruction

namespace Instruction

/-- Over the instructions before it, the last of which comes first, there is nothing to fold: it is no operator, or
not over two pushes, or over constants that fail to combine in the language. -/
def Settled (table : List Constant) (done : List Instruction) (i : Instruction) : Prop :=
  ∀ op right left before, Opcode.ofByte? i.opcode = some (.binary op) → done = right :: left :: before →
    ∃ a b, left.constant? table = .ok a ∧ right.constant? table = .ok b ∧
      ∀ c d, a = some c → b = some d → ∃ fault, op.combine c d = .error fault ∧ fault.inLanguage = true

variable {table : List Constant} {done : List Instruction} {i : Instruction}

theorem Settled.foldStep_eq {chunk : Chunk} (h : i.Settled chunk.constants done) :
    foldStep done i chunk = .ok (i :: done) chunk := by
  by_cases hw : ∃ op right left before, Opcode.ofByte? i.opcode = some (.binary op) ∧ done = right :: left :: before
  · obtain ⟨op, right, left, before, ho, rfl⟩ := hw
    obtain ⟨a, b, ha, hb, hfail⟩ := h op right left before ho rfl
    rw [foldStep_window ho, ha, hb]
    cases a with
    | none => cases b <;> rfl
    | some c =>
      cases b with
      | none => rfl
      | some d =>
        obtain ⟨fault, hf, hl⟩ := hfail c d rfl rfl
        simp only [hf, hl, if_true]
  · exact foldStep_of_no_window (fun op right left before ho hd => hw ⟨op, right, left, before, ho, hd⟩) chunk

/-- What a folding step leaves in place is settled. -/
theorem settled_of_foldStep {chunk after : Chunk} (h : foldStep done i chunk = .ok (i :: done) after) :
    i.Settled chunk.constants done := by
  rintro op right left before ho rfl
  rw [foldStep_window ho] at h
  cases ha : left.constant? chunk.constants with
  | error fault =>
    rw [ha] at h
    cases h
  | ok a =>
    cases hb : right.constant? chunk.constants with
    | error fault =>
      rw [ha, hb] at h
      cases h
    | ok b =>
      refine ⟨a, b, rfl, rfl, ?_⟩
      rintro c d rfl rfl
      simp only [ha, hb] at h
      cases hc : op.combine c d with
      | error fault =>
        refine ⟨fault, rfl, ?_⟩
        by_contra hl
        simp only [hc, if_neg hl] at h
        cases h
      | ok e =>
        simp only [hc] at h
        split at h
        · have hlength := congrArg List.length (EStateM.Result.ok.inj h).1
          simp at hlength
        · cases h

theorem constant?_of_isPrefix {longer : List Constant} (hp : table <+: longer) {found : Option Constant}
    (h : i.constant? table = .ok found) : i.constant? longer = .ok found := by
  unfold constant? at h ⊢
  split at h
  · rename_i hpush
    rw [if_pos hpush]
    split at h
    · rename_i c hc
      obtain ⟨index, hx, hc⟩ := Option.bind_eq_some_iff.1 hc
      rw [hx, Option.bind_some, getElem?_of_isPrefix hp hc]
      exact h
    · cases h
  · rename_i hpush
    rw [if_neg hpush]
    exact h

/-- More constants at the end of the table change nothing for it. -/
theorem Settled.of_isPrefix {longer : List Constant} (h : i.Settled table done) (hp : table <+: longer) :
    i.Settled longer done := by
  intro op right left before ho hd
  obtain ⟨a, b, ha, hb, hfail⟩ := h op right left before ho hd
  exact ⟨a, b, constant?_of_isPrefix hp ha, constant?_of_isPrefix hp hb, hfail⟩

/-- Nor does a change of the table, if each instruction pushes what it pushed. -/
theorem Settled.map {other : List Constant} {f : Instruction → Instruction} (h : i.Settled table done)
    (hi : (f i).opcode = i.opcode) (hf : ∀ j ∈ done, (f j).constant? other = j.constant? table) :
    (f i).Settled other (done.map f) := by
  intro op right left before ho hd
  obtain ⟨right, rest, rfl, rfl, hrest⟩ := List.map_eq_cons_iff.1 hd
  obtain ⟨left, rest, rfl, rfl, -⟩ := List.map_eq_cons_iff.1 hrest
  rw [hf left (by simp), hf right (by simp)]
  exact h op right left rest (hi ▸ ho) rfl

end Instruction

namespace Chunk

/-! ### Settled code -/

/-- Every instruction is settled over those before it, the last of which comes first. -/
def AllSettled (table : List Constant) : List Instruction → Prop
  | [] => True
  | i :: done => i.Settled table done ∧ AllSettled table done

variable {table longer : List Constant} {done next : List Instruction} {i : Instruction} {chunk after : Chunk}

theorem AllSettled.of_isPrefix (h : AllSettled table done) (hp : table <+: longer) : AllSettled longer done := by
  induction done with
  | nil => trivial
  | cons i done ih => exact ⟨h.1.of_isPrefix hp, ih h.2⟩

theorem AllSettled.map {other : List Constant} {f : Instruction → Instruction} (h : AllSettled table done)
    (ho : ∀ i ∈ done, (f i).opcode = i.opcode) (hf : ∀ i ∈ done, (f i).constant? other = i.constant? table) :
    AllSettled other (done.map f) := by
  induction done with
  | nil => trivial
  | cons i done ih =>
    obtain ⟨hi, ho⟩ := List.forall_mem_cons.1 ho
    obtain ⟨-, hf⟩ := List.forall_mem_cons.1 hf
    exact ⟨h.1.map hi hf, ih h.2 ho hf⟩

theorem allSettled_foldStep (h : AllSettled chunk.constants done) (hs : foldStep done i chunk = .ok next after) :
    AllSettled after.constants next := by
  obtain ⟨rfl, rfl⟩ | ⟨op, right, left, before, a, b, c, index, -, rfl, -, -, -, hadd, rfl⟩ := foldStep_ok hs
  · exact ⟨settled_of_foldStep hs, h⟩
  · have hp : chunk.constants <+: after.constants := by
      obtain ⟨-, -, rfl | rfl⟩ := addOperand_ok hadd
      · exact List.prefix_rfl
      · exact List.prefix_append _ _
    refine ⟨fun op right left before ho => ?_, h.2.2.of_isPrefix hp⟩
    cases (Opcode.ofByte?_toByte .pushConst).symm.trans ho

theorem allSettled_foldlM {instructions : List Instruction} (h : AllSettled chunk.constants done)
    (hf : instructions.foldlM foldStep done chunk = .ok next after) : AllSettled after.constants next := by
  induction instructions generalizing chunk done with
  | nil =>
    cases hf
    exact h
  | cons i rest ih =>
    obtain ⟨between, middle, hs, hrest⟩ := foldlM_foldStep_cons.1 hf
    exact ih (allSettled_foldStep h hs) hrest

/-- Folding of settled code does nothing. -/
theorem AllSettled.foldlM_eq (h : AllSettled chunk.constants done) :
    done.reverse.foldlM foldStep [] chunk = .ok done chunk := by
  induction done with
  | nil => rfl
  | cons i done ih =>
    rw [List.reverse_cons, List.foldlM_append]
    simp only [bind, EStateM.bind, ih h.2, List.foldlM_cons, h.1.foldStep_eq]
    rfl

/-! ### Folding twice -/

/-- One pass of folding is enough: a second one succeeds and leaves the chunk as it is. -/
theorem foldConstants_idempotent {trimmed : Chunk} (h : foldConstants chunk = .ok () trimmed) :
    foldConstants trimmed = .ok () trimmed := by
  obtain ⟨done, folded, hf, ht⟩ := foldConstants_eq_ok_iff.1 h
  let used := (⟨assemble done.reverse, folded.constants⟩ : Chunk).slots
  have hdecode : decode (assemble done.reverse) = done.reverse := decode_folded hf
  have hcode : decode trimmed.code = (done.map (·.renumber used)).reverse := by
    rw [decode_trimmed ht, hdecode, List.map_reverse]
  have hstart : AllSettled chunk.constants [] := trivial
  have hsettled : AllSettled trimmed.constants (done.map (·.renumber used)) := by
    refine (allSettled_foldlM hstart hf).map (fun i _ => opcode_renumber used i) fun i hi => ?_
    exact constant?_trimmed ht (by rw [hdecode]; exact List.mem_reverse.2 hi)
  refine foldConstants_eq_ok_iff.2 ⟨done.map (·.renumber used), trimmed, ?_, ?_⟩
  · rw [hcode]
    exact hsettled.foldlM_eq
  · rw [← hcode, assemble_decode]
    exact (compact_trimmed ht).withoutUnused_eq (refers_trimmed ht)

/-- Two texts are joined in one pass, and their difference stays for the run to fail on. -/
theorem foldConstants_idempotent_of_difference :
    foldConstants ⟨[5, 0, 2, 5, 0, 1, 0x60, 5, 0, 2, 0x61, 0x6d, 0x42],
        [⟨.string, .none⟩, ⟨.string, .string "b"⟩, ⟨.string, .string "a"⟩]⟩ =
      .ok () ⟨[5, 0, 0, 5, 0, 1, 0x61, 0x6d, 0x42], [⟨.string, .string "ab"⟩, ⟨.string, .string "a"⟩]⟩ ∧
    foldConstants ⟨[5, 0, 0, 5, 0, 1, 0x61, 0x6d, 0x42], [⟨.string, .string "ab"⟩, ⟨.string, .string "a"⟩]⟩ =
      .ok () ⟨[5, 0, 0, 5, 0, 1, 0x61, 0x6d, 0x42], [⟨.string, .string "ab"⟩, ⟨.string, .string "a"⟩]⟩ := by
  have h : foldConstants ⟨[5, 0, 2, 5, 0, 1, 0x60, 5, 0, 2, 0x61, 0x6d, 0x42],
        [⟨.string, .none⟩, ⟨.string, .string "b"⟩, ⟨.string, .string "a"⟩]⟩ =
      .ok () ⟨[5, 0, 0, 5, 0, 1, 0x61, 0x6d, 0x42], [⟨.string, .string "ab"⟩, ⟨.string, .string "a"⟩]⟩ := by cbv
  exact ⟨h, foldConstants_idempotent h⟩

end Chunk
end ScalarScript
