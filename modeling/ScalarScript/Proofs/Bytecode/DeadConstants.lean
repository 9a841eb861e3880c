import ScalarScript.Proofs.Bytecode.Renumbering

/-! Constants without a reference. Folding leaves a compact table. The removal of idle instructions comes after it
and keeps the table, so an entry whose every push is popped at once stays behind without a reference, and the
numbers of the others may be out of order. Where no push is popped at once the optimized chunk is compact too. -/
namespace ScalarScript

open Chunk Instruction

/-! ### Pushes that stay -/

/-- Somewhere the index is pushed and not popped at once. -/
inductive PushedToStay (index : ℕ) : List Instruction → Prop
  | here {i : Instruction} {rest : List Instruction} (hp : i.is .pushConst = true) (hx : i.index? = some index)
    (hn : ∀ next ∈ rest.head?, next.is .pop = false) : PushedToStay index (i :: rest)
  | later {i : Instruction} {rest : List Instruction} (h : PushedToStay index rest) : PushedToStay index (i :: rest)

theorem not_pushedToStay_nil (index : ℕ) : ¬PushedToStay index [] := nofun

theorem pushedToStay_cons {index : ℕ} {i : Instruction} {rest : List Instruction} :
    PushedToStay index (i :: rest) ↔
      (i.is .pushConst = true ∧ i.index? = some index ∧ ∀ next ∈ rest.head?, next.is .pop = false) ∨
        PushedToStay index rest := by
  constructor
  · rintro (⟨hp, hx, hn⟩ | h)
    · exact .inl ⟨hp, hx, hn⟩
    · exact .inr h
  · rintro (⟨hp, hx, hn⟩ | h)
    · exact .here hp hx hn
    · exact .later h

theorem mem_references_cons {index : ℕ} {i : Instruction} {rest : List Instruction} :
    index ∈ references (i :: rest) ↔
      (i.is .pushConst = true ∧ i.index? = some index) ∨ index ∈ references rest := by
  simp only [mem_references, List.exists_mem_cons_iff]

namespace Instruction

theorem is_unique {i : Instruction} {op other : Opcode} (h : i.is op = true) (hne : other ≠ op) :
    i.is other = false := by
  rw [Bool.eq_false_iff]
  intro ho
  refine hne (Option.some.inj ?_)
  rw [← Opcode.ofByte?_toByte, ← is_iff.1 ho, is_iff.1 h, Opcode.ofByte?_toByte]

end Instruction

/-- The pushes that the removal of idle instructions leaves are those that are not popped at once. -/
theorem mem_references_dropIdle {index : ℕ} (instructions : List Instruction) :
    index ∈ references (dropIdle instructions) ↔ PushedToStay index instructions := by
  fun_induction dropIdle instructions with
  | case1 => simp [references, not_pushedToStay_nil]
  | case2 i hn =>
    have hp : i.is .pushConst = false := is_unique hn (by decide)
    simp [references, pushedToStay_cons, not_pushedToStay_nil, hp]
  | case3 i hn => simp [references, pushedToStay_cons, not_pushedToStay_nil]
  | case4 i next rest hn ih =>
    have hp : i.is .pushConst = false := is_unique hn (by decide)
    rw [ih, pushedToStay_cons (i := i)]
    simp [hp]
  | case5 i next rest _ hpp ih =>
    obtain ⟨-, hpop⟩ := Bool.and_eq_true_iff.1 hpp
    have hnext : next.is .pushConst = false := is_unique hpop (by decide)
    rw [ih, pushedToStay_cons (i := i), pushedToStay_cons (i := next)]
    simp [hpop, hnext]
  | case6 i next rest _ hpp ih =>
    have hkeep (hp : i.is .pushConst = true) : next.is .pop = false := by
      rw [hp, Bool.true_and] at hpp
      exact Bool.eq_false_iff.2 hpp
    rw [mem_references_cons, ih, pushedToStay_cons (i := i)]
    refine or_congr_left (and_congr_right fun hp => ?_)
    simp [hkeep hp]

/-- No push is popped at once. -/
def KeepsPushes (instructions : List Instruction) : Prop :=
  instructions.IsChain fun i next => i.is .pushConst = true → next.is .pop = false

instance (instructions : List Instruction) : Decidable (KeepsPushes instructions) :=
  inferInstanceAs (Decidable (instructions.IsChain _))

theorem keepsPushes_of_no_pop {instructions : List Instruction} (h : ∀ i ∈ instructions, i.is .pop = false) :
    KeepsPushes instructions := by
  have hpairs : instructions.Pairwise fun i next => i.is .pushConst = true → next.is .pop = false :=
    List.pairwise_of_forall_mem_list fun _ _ next hm _ => h next hm
  exact hpairs.isChain

/-- Then every push is left. -/
theorem references_dropIdle {instructions : List Instruction} (h : KeepsPushes instructions) :
    references (dropIdle instructions) = references instructions := by
  fun_induction dropIdle instructions with
  | case1 => rfl
  | case2 i hn => rw [references_cons_of_not_push (is_unique hn (by decide))]
  | case3 => rfl
  | case4 i next rest hn ih =>
    rw [ih (List.isChain_cons_cons.1 h).2, references_cons_of_not_push (is_unique hn (by decide))]
  | case5 i next rest _ hpp =>
    obtain ⟨hp, hpop⟩ := Bool.and_eq_true_iff.1 hpp
    cases hpop.symm.trans ((List.isChain_cons_cons.1 h).1 hp)
  | case6 i next rest _ _ ih =>
    have hrest := ih (List.isChain_cons_cons.1 h).2
    calc references (i :: dropIdle (next :: rest))
        = references [i] ++ references (dropIdle (next :: rest)) := references_append [i] _
      _ = references [i] ++ references (next :: rest) := by rw [hrest]
      _ = references (i :: next :: rest) := (references_append [i] _).symm

namespace Chunk

variable {chunk : Chunk}

theorem decode_withoutIdle (hw : ∀ i ∈ decode chunk.code, i.Whole) :
    decode chunk.withoutIdle.code = dropIdle (decode chunk.code) :=
  decode_assemble (Stream.of_whole fun i hi => hw i ((dropIdle_sublist _).subset hi))

/-! ### Pops under folding -/

theorem mem_of_foldStep {done next : List Instruction} {i j : Instruction} {after : Chunk}
    (hs : foldStep done i chunk = .ok next after) (hj : j ∈ next) : j = i ∨ j ∈ done ∨ j.is .pushConst = true := by
  obtain ⟨rfl, -⟩ | ⟨op, right, left, before, a, b, c, index, -, rfl, -, -, -, -, rfl⟩ := foldStep_ok hs
  · exact (List.mem_cons.1 hj).imp_right .inl
  · obtain rfl | hj := List.mem_cons.1 hj
    · exact .inr (.inr (is_push index))
    · exact .inr (.inl (List.mem_cons_of_mem _ (List.mem_cons_of_mem _ hj)))

theorem mem_of_foldlM {instructions done next : List Instruction} {j : Instruction} {after : Chunk}
    (hf : instructions.foldlM foldStep done chunk = .ok next after) (hj : j ∈ next) :
    j ∈ instructions ∨ j ∈ done ∨ j.is .pushConst = true := by
  induction instructions generalizing chunk done with
  | nil =>
    cases hf
    exact .inr (.inl hj)
  | cons i rest ih =>
    obtain ⟨between, middle, hs, hrest⟩ := foldlM_foldStep_cons.1 hf
    obtain hm | hm | hp := ih hrest
    · exact .inl (List.mem_cons_of_mem i hm)
    · obtain rfl | hm := mem_of_foldStep hs hm
      · exact .inl List.mem_cons_self
      · exact .inr hm
    · exact .inr (.inr hp)

/-- Folding makes no pop. -/
theorem no_pop_foldConstants {folded : Chunk} (h : foldConstants chunk = .ok () folded)
    (hn : ∀ i ∈ decode chunk.code, i.is .pop = false) : ∀ i ∈ decode folded.code, i.is .pop = false := by
  obtain ⟨done, middle, hf, ht⟩ := foldConstants_eq_ok_iff.1 h
  rw [decode_trimmed ht, decode_folded hf]
  refine List.forall_mem_map.2 fun i hi => ?_
  rw [is_renumber]
  obtain hm | hm | hp := mem_of_foldlM hf (List.mem_reverse.1 hi)
  · exact hn i hm
  · cases hm
  · exact is_unique hp (by decide)

/-! ### Optimization -/

theorem Compact.withoutIdle (h : chunk.Compact) (hw : ∀ i ∈ decode chunk.code, i.Whole)
    (hk : KeepsPushes (decode chunk.code)) : chunk.withoutIdle.Compact := by
  rw [Compact, decode_withoutIdle hw, references_dropIdle hk]
  exact h

/-- A chunk without pops is compact when it has been optimized. -/
theorem compact_optimize {optimized : Chunk} (h : chunk.optimize = .ok optimized)
    (hn : ∀ i ∈ decode chunk.code, i.is .pop = false) : optimized.Compact := by
  obtain ⟨done, middle, folded, hf, ht, rfl⟩ := optimize_eq_ok_iff.1 h
  have hfold : foldConstants chunk = .ok () folded := foldConstants_eq_ok_iff.2 ⟨done, middle, hf, ht⟩
  exact (compact_trimmed ht).withoutIdle (Stream.whole_of_refers (refers_trimmed ht) (stream_decode folded.code))
    (keepsPushes_of_no_pop (no_pop_foldConstants hfold hn))

/-- The optimized chunk has the table of the folded one, which is compact. An entry is referred to in the optimized
code just if the folded code pushes it somewhere and does not pop it at once, and the references come in the order
that they had. So the optimized chunk is compact too, as long as no push of the folded code is popped at once. -/
theorem optimize_references {chunk optimized : Chunk} (h : chunk.optimize = .ok optimized) :
    ∃ folded, foldConstants chunk = .ok () folded ∧ folded.Compact ∧ optimized.constants = folded.constants ∧
      (references (decode optimized.code)).Sublist (references (decode folded.code)) ∧
      (∀ index, index ∈ references (decode optimized.code) ↔ PushedToStay index (decode folded.code)) ∧
      (KeepsPushes (decode folded.code) → optimized.Compact) := by
  obtain ⟨done, middle, folded, hf, ht, rfl⟩ := optimize_eq_ok_iff.1 h
  have hw : ∀ i ∈ decode folded.code, i.Whole := Stream.whole_of_refers (refers_trimmed ht) (stream_decode folded.code)
  refine ⟨folded, foldConstants_eq_ok_iff.2 ⟨done, middle, hf, ht⟩, compact_trimmed ht, rfl, ?_, fun index => ?_,
    (compact_trimmed ht).withoutIdle hw⟩
  · rw [decode_withoutIdle hw]
    exact ((dropIdle_sublist _).filter _).filterMap _
  · rw [decode_withoutIdle hw, mem_references_dropIdle]

/-- An unused entry goes and the two others are numbered by their uses. What is popped is no push. -/
theorem optimize_references_of_difference :
    ∃ folded, foldConstants ⟨[0, 5, 0, 2, 5, 0, 0, 0x61, 7],
          [⟨.string, .string "a"⟩, ⟨.string, .none⟩, ⟨.string, .string "b"⟩]⟩ = .ok () folded ∧
      folded.Compact ∧ [⟨.string, .string "b"⟩, ⟨.string, .string "a"⟩] = folded.constants ∧
      (references (decode [5, 0, 0, 5, 0, 1, 0x61, 7])).Sublist (references (decode folded.code)) ∧
      (∀ index, index ∈ references (decode [5, 0, 0, 5, 0, 1, 0x61, 7]) ↔ PushedToStay index (decode folded.code)) ∧
      KeepsPushes (decode folded.code) ∧
      Compact ⟨[5, 0, 0, 5, 0, 1, 0x61, 7], [⟨.string, .string "b"⟩, ⟨.string, .string "a"⟩]⟩ := by
  have h : optimize ⟨[0, 5, 0, 2, 5, 0, 0, 0x61, 7],
        [⟨.string, .string "a"⟩, ⟨.string, .none⟩, ⟨.string, .string "b"⟩]⟩ =
      .ok ⟨[5, 0, 0, 5, 0, 1, 0x61, 7], [⟨.string, .string "b"⟩, ⟨.string, .string "a"⟩]⟩ := by cbv
  have hfold : foldConstants ⟨[0, 5, 0, 2, 5, 0, 0, 0x61, 7],
        [⟨.string, .string "a"⟩, ⟨.string, .none⟩, ⟨.string, .string "b"⟩]⟩ =
      .ok () ⟨[0, 5, 0, 0, 5, 0, 1, 0x61, 7], [⟨.string, .string "b"⟩, ⟨.string, .string "a"⟩]⟩ := by cbv
  obtain ⟨folded, hf, hc, ht, hs, hm, hcompact⟩ := optimize_references h
  have hk : KeepsPushes (decode folded.code) := by
    cases hfold.symm.trans hf
    decide
  exact ⟨folded, hf, hc, ht, hs, hm, hk, hcompact hk⟩

/-- A push that is popped at once goes, and its constant stays: the one push left refers to the second entry, and
nothing to the first. -/
theorem optimize_leaves_dead_constant :
    ∃ chunk optimized : Chunk, chunk = ⟨[0, 5, 0, 0, 7, 5, 0, 1, 0xff], [⟨.int32, .int 1⟩, ⟨.int32, .int 2⟩]⟩ ∧
      chunk.optimize = .ok optimized ∧ optimized.constants.length = 2 ∧
      references (decode optimized.code) = [1] ∧ ¬optimized.Compact := by
  refine ⟨_, ⟨[5, 0, 1, 0xff], [⟨.int32, .int 1⟩, ⟨.int32, .int 2⟩]⟩, rfl, by cbv, rfl, rfl, fun hc => ?_⟩
  have hfirst : 0 ∈ references (decode [5, 0, 1, 0xff]) := (hc.mem_iff 0).1 (by decide)
  exact absurd hfirst (by decide)

end Chunk
end ScalarScript
