import ScalarScript.Bytecode.Optimize
import ScalarScript.Proofs.Bytecode.Stream
import ScalarScript.Proofs.Bytecode.Table
import ScalarScript.Proofs.Operand

/-! The steps of the optimizer one by one: what two constants make, what a folding step does with the
instructions before it, and which of its parts an optimization that succeeds went through. -/
namespace ScalarScript

theorem forall₂_congr {α β : Type} {R S : α → β → Prop} (h : ∀ a b, R a b ↔ S a b) {as : List α} {bs : List β} :
    List.Forall₂ R as bs ↔ List.Forall₂ S as bs :=
  ⟨.imp fun a b => (h a b).1, .imp fun a b => (h a b).2⟩

/-! ### Combined constants -/

namespace Operator

theorem combine_eq_ok_iff {op : Operator} {a b c : Constant} :
    op.combine a b = .ok c ↔ ∃ x y outcome, a.toValue = .ok x ∧ b.toValue = .ok y ∧ op.apply x y = .ok outcome ∧
      c = .ofValue outcome.toValue := by
  simp only [combine, bind_eq_ok_iff, pure, Except.pure, Except.ok.injEq]
  constructor
  · rintro ⟨x, hx, y, hy, outcome, ho, rfl⟩
    exact ⟨x, y, outcome, hx, hy, ho, rfl⟩
  · rintro ⟨x, y, outcome, hx, hy, ho, rfl⟩
    exact ⟨x, hx, y, hy, outcome, ho, rfl⟩

/-- A combined constant has a key and stands for what the operator gives. -/
theorem combine_ok {op : Operator} {a b c : Constant} (h : op.combine a b = .ok c) :
    c.HasKey ∧ ∃ x y outcome, a.toValue = .ok x ∧ b.toValue = .ok y ∧ op.apply x y = .ok outcome ∧
      c.toValue = .ok outcome.toValue := by
  obtain ⟨x, y, outcome, hx, hy, ho, rfl⟩ := combine_eq_ok_iff.1 h
  obtain ⟨o, ho', hp⟩ | ⟨fault, hf, -⟩ :=
    apply_fits op (Constant.canonical_toValue hx).fits (Constant.canonical_toValue hy).fits
  · cases ho.symm.trans ho'
    exact ⟨hp.hasKey, x, y, outcome, hx, hy, ho, hp.toValue_ofValue⟩
  · cases ho.symm.trans hf

/-- Constants with keys fail to combine only in the language. -/
theorem inLanguage_combine {op : Operator} {a b : Constant} {fault : Fault} (ha : a.HasKey) (hb : b.HasKey)
    (h : op.combine a b = .error fault) : fault.inLanguage = true := by
  unfold combine at h
  cases hx : a.toValue with
  | error f =>
    rw [hx] at h
    cases h
    exact Constant.inLanguage_toValue ha hx
  | ok x =>
    cases hy : b.toValue with
    | error f =>
      rw [hx, hy] at h
      cases h
      exact Constant.inLanguage_toValue hb hy
    | ok y =>
      obtain ⟨outcome, ho, -⟩ | ⟨f, ho, hm | hd⟩ :=
        apply_fits op (Constant.canonical_toValue hx).fits (Constant.canonical_toValue hy).fits <;>
        simp only [hx, hy, bind, Except.bind, ho] at h <;> cases h
      · rw [Fault.inLanguage, hm]
      · rw [Fault.inLanguage, hd]

end Operator

/-! ### Folding steps -/

namespace Instruction

theorem constant?_eq_some {i : Instruction} (hw : i.Whole) {table : List Constant} {c : Constant}
    (h : i.constant? table = .ok (some c)) : ∃ index < 65536, i = push index ∧ table[index]? = some c := by
  unfold constant? at h
  split at h
  · rename_i hp
    obtain ⟨index, hi, rfl, hx⟩ := exists_index_of_whole hw hp
    rw [hx, Option.bind_some] at h
    cases hc : table[index]? with
    | none => rw [hc] at h; cases h
    | some d =>
      rw [hc] at h
      cases h
      exact ⟨index, hi, rfl, hc⟩
  · cases h

theorem constant?_push {index : ℕ} (hi : index < 65536) {table : List Constant} {c : Constant}
    (h : table[index]? = some c) : (push index).constant? table = .ok (some c) := by
  rw [constant?, is_push, index?_push hi, Option.bind_some, h]
  rfl

theorem constant?_plain {op : Opcode} (hop : op ≠ .pushConst) (table : List Constant) :
    (plain op).constant? table = .ok none := by
  rw [constant?, plain_is, decide_eq_false hop]
  rfl

end Instruction

namespace Chunk

open Instruction

/-- Without an operator, or without two instructions before it, nothing is folded. -/
theorem foldStep_of_no_window {done : List Instruction} {i : Instruction}
    (h : ∀ op right left before, Opcode.ofByte? i.opcode = some (.binary op) → done ≠ right :: left :: before)
    (chunk : Chunk) : foldStep done i chunk = .ok (i :: done) chunk := by
  cases ho : Opcode.ofByte? i.opcode with
  | none =>
    simp only [foldStep, ho]
    rfl
  | some o =>
    cases o with
    | binary op =>
      match done, h with
      | [], _ | [_], _ =>
        simp only [foldStep, ho]
        rfl
      | right :: left :: before, h => exact absurd rfl (h op right left before ho)
    | nop | pushConst | pop | halt =>
      simp only [foldStep, ho]
      rfl

theorem foldStep_window {op : Operator} {i : Instruction} (ho : Opcode.ofByte? i.opcode = some (.binary op))
    (right left : Instruction) (before : List Instruction) (chunk : Chunk) :
    foldStep (right :: left :: before) i chunk =
      match left.constant? chunk.constants, right.constant? chunk.constants with
      | .error fault, _ | .ok _, .error fault => .error fault chunk
      | .ok (some a), .ok (some b) =>
        match op.combine a b with
        | .ok c =>
          match addOperand c chunk with
          | .ok index after => .ok (push index :: before) after
          | .error fault after => .error fault after
        | .error fault => if fault.inLanguage then .ok (i :: right :: left :: before) chunk else .error fault chunk
      | .ok _, .ok _ => .ok (i :: right :: left :: before) chunk := by
  simp only [foldStep, ho, bind, EStateM.bind, get, getThe, MonadStateOf.get, EStateM.get]
  cases left.constant? chunk.constants with
  | error fault => rfl
  | ok a =>
    cases right.constant? chunk.constants with
    | error fault => rfl
    | ok b =>
      cases a with
      | none => cases b <;> rfl
      | some a =>
        cases b with
        | none => rfl
        | some b =>
          simp only [Stateful.lift_ok]
          cases op.combine a b with
          | error fault => cases hl : fault.inLanguage <;> simp [hl] <;> rfl
          | ok c =>
            simp only [EStateM.bind]
            cases addOperand c chunk <;> rfl

/-- A folding step puts the instruction last, or the push of what two constants make in their place. -/
theorem foldStep_ok {done result : List Instruction} {i : Instruction} {chunk after : Chunk}
    (h : foldStep done i chunk = .ok result after) :
    (result = i :: done ∧ after = chunk) ∨
      ∃ op right left before a b c index, Opcode.ofByte? i.opcode = some (.binary op) ∧
        done = right :: left :: before ∧ left.constant? chunk.constants = .ok (some a) ∧
        right.constant? chunk.constants = .ok (some b) ∧ op.combine a b = .ok c ∧
        addOperand c chunk = .ok index after ∧ result = push index :: before := by
  by_cases hw : ∃ op right left before, Opcode.ofByte? i.opcode = some (.binary op) ∧ done = right :: left :: before
  · obtain ⟨op, right, left, before, ho, rfl⟩ := hw
    rw [foldStep_window ho] at h
    split at h
    · cases h
    · cases h
    · rename_i a b hl hr
      split at h
      · rename_i c hc
        split at h
        · rename_i index after' ha
          cases h
          exact .inr ⟨op, right, left, before, a, b, c, index, ho, rfl, hl, hr, hc, ha, rfl⟩
        · cases h
      · split at h
        · cases h
          exact .inl ⟨rfl, rfl⟩
        · cases h
    · cases h
      exact .inl ⟨rfl, rfl⟩
  · rw [foldStep_of_no_window fun op right left before ho hd => hw ⟨op, right, left, before, ho, hd⟩] at h
    cases h
    exact .inl ⟨rfl, rfl⟩

theorem foldlM_foldStep_cons {i : Instruction} {rest done result : List Instruction} {chunk after : Chunk} :
    (i :: rest).foldlM foldStep done chunk = .ok result after ↔ ∃ next middle,
      foldStep done i chunk = .ok next middle ∧ rest.foldlM foldStep next middle = .ok result after := by
  simp only [List.foldlM_cons, bind, EStateM.bind]
  cases foldStep done i chunk with
  | error fault middle => simp
  | ok next middle => simp

/-! ### The passes -/

theorem usedIndices_eq_ok_iff {instructions : List Instruction} {used : List ℕ} :
    usedIndices instructions = .ok used ↔ ∃ indices,
      List.Forall₂ (fun i index => i.index? = some index) (instructions.filter (·.is .pushConst)) indices ∧
        indices.eraseDups = used := by
  simp only [usedIndices, bind_eq_ok_iff, mapM_eq_ok_iff, pure, Except.pure, Except.ok.injEq]
  refine exists_congr fun indices => and_congr_left' (forall₂_congr fun i index => ?_)
  cases i.index? <;> simp

theorem withoutUnused_eq_ok_iff {chunk trimmed : Chunk} :
    chunk.withoutUnused = .ok trimmed ↔ ∃ used, usedIndices (decode chunk.code) = .ok used ∧ ∃ constants,
      List.Forall₂ (fun index c => chunk.constants[index]? = some c) used constants ∧
        ⟨assemble ((decode chunk.code).map (·.renumber used)), constants⟩ = trimmed := by
  simp only [withoutUnused, bind_eq_ok_iff, mapM_eq_ok_iff, pure, Except.pure, Except.ok.injEq]
  refine exists_congr fun used => and_congr_right' (exists_congr fun constants =>
    and_congr_left' (forall₂_congr fun index c => ?_))
  cases chunk.constants[index]? <;> simp

theorem foldConstants_eq (chunk : Chunk) :
    foldConstants chunk =
      match (decode chunk.code).foldlM foldStep [] chunk with
      | .error fault after => .error fault after
      | .ok done folded =>
        match withoutUnused ⟨assemble done.reverse, folded.constants⟩ with
        | .error fault => .error fault ⟨assemble done.reverse, folded.constants⟩
        | .ok trimmed => .ok () trimmed := by
  simp only [foldConstants, dropUnused, bind, EStateM.bind, get, getThe, MonadStateOf.get, EStateM.get, set, modify,
    modifyGet, MonadStateOf.modifyGet, EStateM.modifyGet]
  cases (decode chunk.code).foldlM foldStep [] chunk with
  | error fault after => rfl
  | ok done folded =>
    simp only
    cases withoutUnused ⟨assemble done.reverse, folded.constants⟩ <;> rfl

/-- What a successful folding went through. -/
theorem foldConstants_eq_ok_iff {chunk trimmed : Chunk} :
    foldConstants chunk = .ok () trimmed ↔ ∃ done folded,
      (decode chunk.code).foldlM foldStep [] chunk = .ok done folded ∧
        withoutUnused ⟨assemble done.reverse, folded.constants⟩ = .ok trimmed := by
  rw [foldConstants_eq]
  cases (decode chunk.code).foldlM foldStep [] chunk with
  | error fault after => simp
  | ok done folded =>
    cases ht : withoutUnused ⟨assemble done.reverse, folded.constants⟩ with
    | error fault => simp [ht]
    | ok trimmed => simp [ht]

/-- What a successful optimization went through. -/
theorem optimize_eq_ok_iff {chunk optimized : Chunk} :
    chunk.optimize = .ok optimized ↔ ∃ done folded trimmed,
      (decode chunk.code).foldlM foldStep [] chunk = .ok done folded ∧
        withoutUnused ⟨assemble done.reverse, folded.constants⟩ = .ok trimmed ∧ optimized = trimmed.withoutIdle := by
  have ho : chunk.optimize = .ok optimized ↔
      ∃ trimmed, foldConstants chunk = .ok () trimmed ∧ optimized = trimmed.withoutIdle := by
    simp only [optimize, Stateful.after, optimizeStep, EStateM.run, bind, EStateM.bind, modify, modifyGet,
      MonadStateOf.modifyGet, EStateM.modifyGet]
    cases foldConstants chunk with
    | error fault after => simp
    | ok u trimmed => simp [eq_comm]
  rw [ho]
  constructor
  · rintro ⟨trimmed, hf, rfl⟩
    obtain ⟨done, folded, hd, ht⟩ := foldConstants_eq_ok_iff.1 hf
    exact ⟨done, folded, trimmed, hd, ht, rfl⟩
  · rintro ⟨done, folded, trimmed, hd, ht, rfl⟩
    exact ⟨trimmed, foldConstants_eq_ok_iff.2 ⟨done, folded, hd, ht⟩, rfl⟩

end Chunk
end ScalarScript
