import ScalarScript.Proofs.Bytecode.Execution
import ScalarScript.Proofs.Bytecode.Optimization

/-! Optimization preserves what any chunk does. Over a table that is already as long as folding makes it,
folding changes no execution, and neither does the renumbering of the constants. Two things can: the
longer table, for pushes beyond the original one, and the removal of a push whose constant stands for no
value. In both cases the original run failed, and sound chunks have neither. -/
namespace ScalarScript

open Chunk Instruction

/-! ### Executions beside a reference -/

/-- The execution does as the reference does; without soundness it need not where the reference fails. -/
def Follows (sound : Prop) (result reference : Except Ending (List Value)) : Prop :=
  result = reference ∨ ¬sound ∧ ∃ fault after, reference = .error (.error fault, after)

namespace Follows

variable {sound : Prop}

theorem trans {first second third : Except Ending (List Value)} (h : Follows sound first second)
    (h' : Follows sound second third) : Follows sound first third := by
  obtain rfl | hfail := h
  · exact h'
  · obtain rfl | hfail' := h'
    · exact .inr hfail
    · exact .inr hfail'

theorem cons {table constants : List Constant} {i : Instruction} {rest rest' : List Instruction} {stack : List Value}
    (hi : i.execute table stack = i.execute constants stack)
    (h : ∀ next, Follows sound (executeAll table rest next) (executeAll constants rest' next)) :
    Follows sound (executeAll table (i :: rest) stack) (executeAll constants (i :: rest') stack) := by
  rw [executeAll_cons, executeAll_cons, hi]
  cases i.execute constants stack with
  | error ending => exact .inl rfl
  | ok next => exact h next

end Follows

/-! ### Longer tables -/

/-- Only a run that needs an entry beyond its table can tell a longer table apart, and that run fails. -/
theorem executeAll_of_isPrefix {first second : List Constant} (hp : first <+: second) {instructions : List Instruction}
    (hs : Stream instructions) {sound : Prop}
    (hx : sound → ∀ i ∈ instructions, i.is .pushConst = true → ∃ index, i.index? = some index ∧ index < first.length)
    (stack : List Value) :
    Follows sound (executeAll second instructions stack) (executeAll first instructions stack) := by
  induction hs generalizing stack with
  | nil => exact .inl rfl
  | @cut i h =>
    have hi : i.execute second stack = i.execute first stack := by
      rw [Instruction.execute, Instruction.execute, step_bytes_of_cut second stack h, step_bytes_of_cut first stack h]
    exact .cons hi fun next => .inl rfl
  | @cons i rest hw _ ih =>
    have hrest := ih fun hsound j hj => hx hsound j (List.mem_cons_of_mem i hj)
    cases hpush : i.is .pushConst with
    | false => exact .cons (execute_congr hpush first) hrest
    | true =>
      obtain ⟨index, hi, rfl, hindex⟩ := exists_index_of_whole hw hpush
      by_cases hl : index < first.length
      · have hc := List.getElem?_eq_getElem hl
        refine .cons ?_ hrest
        rw [execute_push_of_some hi (getElem?_of_isPrefix hp hc), execute_push_of_some hi hc]
      · refine .inr ⟨fun hsound => ?_, .constantOutOfRange index, stack, ?_⟩
        · obtain ⟨other, ho, hlt⟩ := hx hsound _ List.mem_cons_self hpush
          cases hindex.symm.trans ho
          exact hl hlt
        · rw [executeAll_cons, execute_push_of_none hi (List.getElem?_eq_none (Nat.not_lt.1 hl))]
          rfl

/-! ### Folding -/

/-- What folding comes to: more constants, and instructions that do the same over a table with them. -/
structure Folded (chunk : Chunk) (source : List Instruction) (after : Chunk) (target : List Instruction) : Prop where
  code : after.code = chunk.code
  grows : chunk.constants <+: after.constants
  sound : ∀ c ∈ after.constants, c ∈ chunk.constants ∨ ∃ v, c.toValue = .ok v
  agrees : ∀ table, after.constants <+: table → ∀ stack, executeAll table target stack = executeAll table source stack

namespace Folded

variable {chunk middle after : Chunk} {source between target : List Instruction}

theorem refl (chunk : Chunk) (source : List Instruction) : Folded chunk source chunk source where
  code := rfl
  grows := List.prefix_rfl
  sound := fun _ hc => .inl hc
  agrees := fun _ _ _ => rfl

theorem trans (h : Folded chunk source middle between) (h' : Folded middle between after target) :
    Folded chunk source after target where
  code := h'.code.trans h.code
  grows := h.grows.trans h'.grows
  sound := fun c hc => (h'.sound c hc).elim (h.sound c) .inr
  agrees := fun table hp stack => (h'.agrees table hp stack).trans (h.agrees table (h'.grows.trans hp) stack)

theorem append (h : Folded chunk source after target) (rest : List Instruction) :
    Folded chunk (source ++ rest) after (target ++ rest) where
  code := h.code
  grows := h.grows
  sound := h.sound
  agrees := fun table hp stack => by rw [executeAll_append, executeAll_append, h.agrees table hp]

end Folded

/-- Two pushes under an operator do what the push of the combined constant does. -/
theorem executeAll_window {op : Operator} {a b c : Constant} (h : op.combine a b = .ok c) {table : List Constant}
    {left right index : ℕ} (hl : left < 65536) (hr : right < 65536) (hi : index < 65536)
    (ha : table[left]? = some a) (hb : table[right]? = some b) (hc : table[index]? = some c) (stack : List Value) :
    executeAll table [push left, push right, plain (.binary op)] stack = executeAll table [push index] stack := by
  obtain ⟨-, x, y, outcome, hx, hy, ho, hv⟩ := Operator.combine_ok h
  have hleft : (push left).execute table stack = .ok (x :: stack) := by rw [execute_push_of_some hl ha, hx]
  have hright : (push right).execute table (x :: stack) = .ok (y :: x :: stack) := by
    rw [execute_push_of_some hr hb, hy]
  have hop : (plain (.binary op)).execute table (y :: x :: stack) = .ok (outcome.toValue :: stack) := by
    rw [execute_operator, ho]
  have hindex : (push index).execute table stack = .ok (outcome.toValue :: stack) := by
    rw [execute_push_of_some hi hc, hv]
  simp only [executeAll_cons, hleft, hright, hop, hindex, bind, Except.bind, executeAll_nil]

theorem folded_foldStep {done result : List Instruction} {i : Instruction} {chunk after : Chunk} (hi : i.Whole)
    (hd : ∀ j ∈ done, j.Whole) (h : foldStep done i chunk = .ok result after) :
    (∀ j ∈ result, j.Whole) ∧ Folded chunk (done.reverse ++ [i]) after result.reverse := by
  obtain ⟨rfl, rfl⟩ | ⟨op, right, left, before, a, b, c, index, ho, rfl, hl, hr, hc, hadd, rfl⟩ := foldStep_ok h
  · exact ⟨List.forall_mem_cons.2 ⟨hi, hd⟩, by simpa using Folded.refl after (done.reverse ++ [i])⟩
  · obtain rfl := eq_plain hi ho (by simp)
    obtain ⟨hwr, hwl, hwb⟩ := by simpa using hd
    obtain ⟨li, hli, rfl, hla⟩ := constant?_eq_some hwl hl
    obtain ⟨ri, hri, rfl, hra⟩ := constant?_eq_some hwr hr
    obtain ⟨hindex, hi, htable⟩ := addOperand_ok hadd
    have hgrows : chunk.constants <+: after.constants := by
      obtain rfl | rfl := htable
      · exact List.prefix_rfl
      · exact List.prefix_append _ _
    have hcode : after.code = chunk.code := by obtain rfl | rfl := htable <;> rfl
    have hmem (d : Constant) (hd : d ∈ after.constants) : d ∈ chunk.constants ∨ d = c := by
      obtain rfl | rfl := htable
      · exact .inl hd
      · simpa using hd
    refine ⟨List.forall_mem_cons.2 ⟨whole_push _, hwb⟩, hcode, hgrows, ?_, ?_⟩
    · intro d hd
      obtain hd | rfl := hmem d hd
      · exact .inl hd
      · obtain ⟨-, x, y, outcome, -, -, -, hv⟩ := Operator.combine_ok hc
        exact .inr ⟨_, hv⟩
    · intro table hp stack
      have hw := funext <| executeAll_window hc hli hri hi (getElem?_of_isPrefix (hgrows.trans hp) hla)
        (getElem?_of_isPrefix (hgrows.trans hp) hra) (getElem?_of_isPrefix hp hindex)
      simp only [List.reverse_cons, List.append_assoc, List.cons_append, List.nil_append]
      rw [executeAll_append, executeAll_append, hw]

theorem folded_foldlM {instructions done result : List Instruction} {chunk after : Chunk} (hs : Stream instructions)
    (hd : ∀ j ∈ done, j.Whole) (h : instructions.foldlM foldStep done chunk = .ok result after) :
    Stream result.reverse ∧ Folded chunk (done.reverse ++ instructions) after result.reverse := by
  induction hs generalizing done chunk with
  | nil =>
    cases h
    exact ⟨Stream.of_whole (by simpa using hd), by simpa using Folded.refl after result.reverse⟩
  | @cut i hcut =>
    obtain ⟨next, middle, hstep, hrest⟩ := foldlM_foldStep_cons.1 h
    cases hrest
    have hpush : Opcode.ofByte? i.opcode = some .pushConst := by rw [is_iff.1 hcut.1, Opcode.ofByte?_toByte]
    rw [foldStep_of_no_window fun op right left before ho => by cases hpush.symm.trans ho] at hstep
    cases hstep
    rw [List.reverse_cons]
    exact ⟨Stream.append (by simpa using hd) (.cut hcut), Folded.refl _ _⟩
  | @cons i rest hi _ ih =>
    obtain ⟨next, middle, hstep, hrest⟩ := foldlM_foldStep_cons.1 h
    obtain ⟨hnext, hfold⟩ := folded_foldStep hi hd hstep
    obtain ⟨hstream, hfolded⟩ := ih hnext hrest
    exact ⟨hstream, by simpa using (hfold.append rest).trans hfolded⟩

/-! ### Unused constants -/

/-- The push of an entry of the table. -/
def Instruction.Pushes (constants : List Constant) (i : Instruction) : Prop :=
  ∃ index < 65536, ∃ c, i = push index ∧ constants[index]? = some c

theorem index?_lt {i : Instruction} {index : ℕ} (h : i.index? = some index) : index < 65536 := by
  unfold index? at h
  split at h <;> cases h
  exact wordOf_lt _ _

theorem exists_right_of_forall₂ {α β : Type} {R : α → β → Prop} {as : List α} {bs : List β}
    (h : List.Forall₂ R as bs) {a : α} (ha : a ∈ as) : ∃ b ∈ bs, R a b := by
  induction h with
  | nil => cases ha
  | cons hr _ ih =>
    obtain rfl | ha := List.mem_cons.1 ha
    · exact ⟨_, List.mem_cons_self, hr⟩
    · obtain ⟨b, hb, hab⟩ := ih ha
      exact ⟨b, List.mem_cons_of_mem _ hb, hab⟩

/-- The indices in use are those that the pushes carry, fewer than an operand can tell apart. -/
theorem usedIndices_ok {instructions : List Instruction} {used : List ℕ} (h : usedIndices instructions = .ok used) :
    used.length ≤ 65536 ∧ ∀ i ∈ instructions, i.is .pushConst = true → ∃ index ∈ used, i.index? = some index := by
  obtain ⟨indices, hi, rfl⟩ := usedIndices_eq_ok_iff.1 h
  constructor
  · have hlt : indices.eraseDups ⊆ List.range 65536 := by
      intro index hm
      obtain ⟨i, -, hx⟩ := exists_right_of_forall₂ hi.flip (List.mem_eraseDups.1 hm)
      exact List.mem_range.2 (index?_lt hx)
    simpa only [List.length_range] using (List.subperm_of_subset (nodup_eraseDups indices) hlt).length_le
  · intro i hm hp
    obtain ⟨index, hx, he⟩ := exists_right_of_forall₂ hi (List.mem_filter.2 ⟨hm, hp⟩)
    exact ⟨index, List.mem_eraseDups.2 hx, he⟩

/-- An entry moves to the place of its index among those in use. -/
theorem getElem?_idxOf_of_forall₂ {table constants : List Constant} {used : List ℕ}
    (h : List.Forall₂ (fun index c => table[index]? = some c) used constants) {index : ℕ} (hi : index ∈ used) :
    ∃ c, table[index]? = some c ∧ constants[used.idxOf index]? = some c := by
  induction h with
  | nil => cases hi
  | @cons first c used constants hc _ ih =>
    by_cases he : first = index
    · subst he
      exact ⟨c, hc, by simp⟩
    · obtain ⟨d, hd, hd'⟩ := ih ((List.mem_cons.1 hi).resolve_left (Ne.symm he))
      exact ⟨d, hd, by rw [List.idxOf_cons_ne used he, List.getElem?_cons_succ, hd']⟩

section Renumber

variable {table constants : List Constant} {used : List ℕ} {i : Instruction}
  (hc : List.Forall₂ (fun index c => table[index]? = some c) used constants) (hl : used.length ≤ 65536)
  (hi : i.Whole) (hu : i.is .pushConst = true → ∃ index ∈ used, i.index? = some index)
include hc hl hi hu

theorem renumber_cases :
    (i.is .pushConst = false ∧ i.renumber used = i) ∨
      ∃ index < 65536, ∃ other < 65536, ∃ c, i = push index ∧ table[index]? = some c ∧
        i.renumber used = push other ∧ constants[other]? = some c := by
  cases hp : i.is .pushConst with
  | false => exact .inl ⟨rfl, by rw [renumber, hp]⟩
  | true =>
    obtain ⟨index, hlt, rfl, hx⟩ := exists_index_of_whole hi hp
    obtain ⟨other, hm, ho⟩ := hu hp
    cases hx.symm.trans ho
    obtain ⟨c, ht, hcon⟩ := getElem?_idxOf_of_forall₂ hc hm
    have hidx : used.idxOf index < 65536 := (List.idxOf_lt_length_of_mem hm).trans_le hl
    exact .inr ⟨index, hlt, _, hidx, c, rfl, ht, by simp only [renumber, hp, hx], hcon⟩

theorem whole_renumber : (i.renumber used).Whole := by
  obtain ⟨-, h⟩ | ⟨index, -, other, -, c, -, -, h, -⟩ := renumber_cases hc hl hi hu
  · rwa [h]
  · rw [h]
    exact whole_push other

theorem pushes_renumber (hp : (i.renumber used).is .pushConst = true) : (i.renumber used).Pushes constants := by
  obtain ⟨h, he⟩ | ⟨index, -, other, ho, c, -, -, h, hother⟩ := renumber_cases hc hl hi hu
  · rw [he, h] at hp
    cases hp
  · exact ⟨other, ho, c, h, hother⟩

theorem execute_renumber (stack : List Value) :
    (i.renumber used).execute constants stack = i.execute table stack := by
  obtain ⟨h, he⟩ | ⟨index, hlt, other, ho, c, rfl, hindex, h, hother⟩ := renumber_cases hc hl hi hu
  · rw [he, execute_congr h]
  · rw [h, execute_push_of_some ho hother, execute_push_of_some hlt hindex]

end Renumber

theorem executeAll_map_renumber {table constants : List Constant} {used : List ℕ}
    (hc : List.Forall₂ (fun index c => table[index]? = some c) used constants) (hl : used.length ≤ 65536)
    {instructions : List Instruction} (hw : ∀ i ∈ instructions, i.Whole)
    (hu : ∀ i ∈ instructions, i.is .pushConst = true → ∃ index ∈ used, i.index? = some index) (stack : List Value) :
    executeAll constants (instructions.map (·.renumber used)) stack = executeAll table instructions stack := by
  induction instructions generalizing stack with
  | nil => rfl
  | cons i rest ih =>
    obtain ⟨hi, hw⟩ := List.forall_mem_cons.1 hw
    obtain ⟨hui, hu⟩ := List.forall_mem_cons.1 hu
    rw [List.map_cons, executeAll_cons, executeAll_cons, execute_renumber hc hl hi hui]
    exact congrArg _ (funext (ih hw hu))

/-- Trimming keeps every execution, and leaves only pushes of entries. -/
theorem withoutUnused_ok {instructions : List Instruction} {table : List Constant} (hs : Stream instructions)
    {trimmed : Chunk} (h : withoutUnused ⟨assemble instructions, table⟩ = .ok trimmed) :
    trimmed.constants ⊆ table ∧
      (∀ i ∈ decode trimmed.code, i.Whole ∧ (i.is .pushConst = true → i.Pushes trimmed.constants)) ∧
      ∀ stack, executeAll trimmed.constants (decode trimmed.code) stack = executeAll table instructions stack := by
  obtain ⟨used, hu, constants, hc, rfl⟩ := withoutUnused_eq_ok_iff.1 h
  rw [decode_assemble hs] at hu ⊢
  obtain ⟨hl, hpush⟩ := usedIndices_ok hu
  have hw : ∀ i ∈ instructions, i.Whole := by
    refine hs.whole_of_index? fun i hi hp => ?_
    obtain ⟨index, -, hx⟩ := hpush i hi hp
    simp [hx]
  have hr : ∀ i ∈ instructions.map (·.renumber used), i.Whole ∧ (i.is .pushConst = true → i.Pushes constants) := by
    intro i hi
    obtain ⟨j, hj, rfl⟩ := List.mem_map.1 hi
    exact ⟨whole_renumber hc hl (hw j hj) (hpush j hj), pushes_renumber hc hl (hw j hj) (hpush j hj)⟩
  rw [decode_assemble (Stream.of_whole fun i hi => (hr i hi).1)]
  refine ⟨fun c hm => ?_, hr, executeAll_map_renumber hc hl hw hpush⟩
  obtain ⟨index, -, hx⟩ := exists_right_of_forall₂ hc.flip hm
  exact List.mem_of_getElem? hx

/-! ### Idle instructions -/

theorem dropIdle_sublist (instructions : List Instruction) : (dropIdle instructions).Sublist instructions := by
  fun_induction dropIdle instructions with
  | case1 => exact List.Sublist.refl []
  | case2 => exact List.nil_sublist _
  | case3 => exact List.Sublist.refl _
  | case4 i next rest _ ih => exact ih.cons i
  | case5 i next rest _ _ ih => exact (ih.cons next).cons i
  | case6 i next rest _ _ ih => exact ih.cons_cons i

theorem eq_plain_of_is {i : Instruction} {op : Opcode} (hw : i.Whole) (h : i.is op = true) (hop : op ≠ .pushConst) :
    i = plain op :=
  eq_plain hw (by rw [is_iff.1 h, Opcode.ofByte?_toByte]) hop

/-- Only a push that fails is missed when idle instructions are left out. -/
theorem executeAll_dropIdle {constants : List Constant} {instructions : List Instruction}
    (h : ∀ i ∈ instructions, i.Whole ∧ (i.is .pushConst = true → i.Pushes constants)) {sound : Prop}
    (hv : sound → ∀ c ∈ constants, ∃ v, c.toValue = .ok v) (stack : List Value) :
    Follows sound (executeAll constants (dropIdle instructions) stack) (executeAll constants instructions stack) := by
  fun_induction dropIdle instructions generalizing stack with
  | case1 => exact .inl rfl
  | case2 i hn =>
    obtain rfl := eq_plain_of_is (h i List.mem_cons_self).1 hn (by simp)
    refine .inl ?_
    rw [executeAll_cons, execute_nop]
    rfl
  | case3 => exact .inl rfl
  | case4 i next rest hn ih =>
    obtain ⟨hi, hrest⟩ := List.forall_mem_cons.1 h
    obtain rfl := eq_plain_of_is hi.1 hn (by simp)
    rw [executeAll_cons (plain .nop), execute_nop]
    exact ih hrest stack
  | case5 i next rest _ hpp ih =>
    obtain ⟨hi, hnext, hrest⟩ := by simpa only [List.forall_mem_cons] using h
    obtain ⟨hpush, hpop⟩ := Bool.and_eq_true_iff.1 hpp
    obtain ⟨index, hlt, c, rfl, hc⟩ := hi.2 hpush
    obtain rfl := eq_plain_of_is hnext.1 hpop (by simp)
    rw [executeAll_cons, execute_push_of_some hlt hc]
    cases hcv : c.toValue with
    | error fault =>
      refine .inr ⟨fun hsound => ?_, fault, stack, rfl⟩
      obtain ⟨v, hcv'⟩ := hv hsound c (List.mem_of_getElem? hc)
      cases hcv.symm.trans hcv'
    | ok v =>
      change Follows sound _ (executeAll constants (plain .pop :: rest) (v :: stack))
      rw [executeAll_cons, execute_pop]
      exact ih hrest stack
  | case6 i next rest _ _ ih =>
    obtain ⟨-, hrest⟩ := List.forall_mem_cons.1 h
    exact .cons rfl (ih hrest)

/-! ### Optimization -/

/-- Every push refers to an entry of the table, and every entry stands for a value. -/
structure Chunk.Sound (chunk : Chunk) : Prop where
  pushes : ∀ i ∈ decode chunk.code, i.is .pushConst = true →
    ∃ index, i.index? = some index ∧ index < chunk.constants.length
  constants : ∀ c ∈ chunk.constants, ∃ v, c.toValue = .ok v

/-- The optimized chunk executes as the chunk does, unless the chunk is not sound and fails. -/
theorem execute_optimize {chunk optimized : Chunk} (h : chunk.optimize = .ok optimized) (stack : List Value) :
    optimized.execute stack = chunk.execute stack ∨
      ¬chunk.Sound ∧ ∃ fault after, chunk.execute stack = (.error fault, after) := by
  obtain ⟨done, folded, trimmed, hfold, htrim, rfl⟩ := optimize_eq_ok_iff.1 h
  obtain ⟨hs, hf⟩ := folded_foldlM (stream_decode chunk.code) (List.forall_mem_nil _) hfold
  obtain ⟨hsub, hr, htrimmed⟩ := withoutUnused_ok hs htrim
  have hvalues (hsound : chunk.Sound) : ∀ c ∈ trimmed.constants, ∃ v, c.toValue = .ok v :=
    fun c hc => (hf.sound c (hsub hc)).elim (hsound.constants c) id
  have hkeep : executeAll trimmed.constants (decode trimmed.code) stack =
      executeAll folded.constants (decode chunk.code) stack :=
    (htrimmed stack).trans (hf.agrees folded.constants List.prefix_rfl stack)
  have hidle := executeAll_dropIdle hr hvalues stack
  have hlong := executeAll_of_isPrefix hf.grows (stream_decode chunk.code) Chunk.Sound.pushes stack
  rw [hkeep] at hidle
  have hcode : decode trimmed.withoutIdle.code = dropIdle (decode trimmed.code) :=
    decode_assemble (Stream.of_whole fun i hi => (hr i ((dropIdle_sublist _).subset hi)).1)
  rw [Chunk.execute, Chunk.execute, hcode]
  obtain hsame | ⟨hsound, fault, after, hfail⟩ := hidle.trans hlong
  · exact .inl (congrArg settle hsame)
  · exact .inr ⟨hsound, fault, after, by rw [hfail, settle]⟩

/-- Wherever a run gives a value, the optimized chunk gives it too and leaves the same stack; and where a run
of a sound chunk fails, the optimized chunk fails alike. -/
theorem optimize_preserves_run {chunk optimized : Chunk} (h : chunk.optimize = .ok optimized) (m : Machine) :
    (∀ v after, Machine.run chunk m = .ok v after →
      ∃ after', Machine.run optimized m = .ok v after' ∧ after'.stack = after.stack) ∧
    (chunk.Sound → ∀ fault after, Machine.run chunk m = .error fault after →
      ∃ after', Machine.run optimized m = .error fault after' ∧ after'.stack = after.stack) := by
  obtain ⟨ip, hrun⟩ := Machine.run_eq_execute chunk m
  obtain ⟨ip', hrun'⟩ := Machine.run_eq_execute optimized m
  have hexec := execute_optimize h m.stack
  rw [hrun, hrun']
  generalize chunk.execute m.stack = ending at hexec ⊢
  obtain ⟨outcome, stack⟩ := ending
  constructor
  · intro v after hv
    cases outcome with
    | error fault => cases hv
    | ok w =>
      cases hv
      obtain hexec | ⟨-, fault, after, hf⟩ := hexec
      · rw [hexec]
        exact ⟨_, rfl, rfl⟩
      · cases hf
  · intro hsound fault after hf
    cases outcome with
    | ok w => cases hf
    | error fault' =>
      cases hf
      rw [hexec.resolve_right fun h => h.1 hsound]
      exact ⟨_, rfl, rfl⟩

/-- The end of a text: appended to the text on the stack, and an underflow without one. -/
theorem optimize_preserves_run_of_suffix :
    (∃ after, Machine.run ⟨[5, 0, 0, 0x60, 0xff], [⟨.string, .string "s"⟩]⟩ ⟨[.ofString "key"], []⟩ =
      .ok (.ofString "keys") after ∧ after.stack = []) ∧
    ∃ after, Machine.run ⟨[5, 0, 0, 0x60, 0xff], [⟨.string, .string "s"⟩]⟩ {} = .error .stackUnderflow after ∧
      after.stack = [] := by
  have h : Chunk.optimize ⟨[5, 0, 0, 0, 0x60, 0xff], [⟨.string, .string "s"⟩]⟩ =
      .ok ⟨[5, 0, 0, 0x60, 0xff], [⟨.string, .string "s"⟩]⟩ := by cbv
  have hrun : Machine.run ⟨[5, 0, 0, 0, 0x60, 0xff], [⟨.string, .string "s"⟩]⟩ ⟨[.ofString "key"], []⟩ =
      .ok (.ofString "keys") ⟨[], [⟨⟨[5, 0, 0, 0, 0x60, 0xff], [⟨.string, .string "s"⟩]⟩, 6⟩]⟩ := by cbv
  have hfail : Machine.run ⟨[5, 0, 0, 0, 0x60, 0xff], [⟨.string, .string "s"⟩]⟩ {} =
      .error .stackUnderflow ⟨[], [⟨⟨[5, 0, 0, 0, 0x60, 0xff], [⟨.string, .string "s"⟩]⟩, 5⟩]⟩ := by cbv
  have hsound : Chunk.Sound ⟨[5, 0, 0, 0, 0x60, 0xff], [⟨.string, .string "s"⟩]⟩ := by
    constructor
    · intro i hi hp
      have hd : decode [5, 0, 0, 0, 0x60, 0xff] =
        [.push 0, .plain .nop, .plain (.binary .add), .plain .halt] := rfl
      simp only [hd, List.mem_cons, List.not_mem_nil, or_false] at hi
      obtain rfl | rfl | rfl | rfl := hi
      · exact ⟨0, rfl, by decide⟩
      all_goals cases hp
    · exact List.forall_mem_singleton.2 ⟨_, rfl⟩
  exact ⟨(optimize_preserves_run h _).1 _ _ hrun, (optimize_preserves_run h _).2 hsound _ _ hfail⟩

end ScalarScript
