import ScalarScript.Proofs.Bytecode.Compilation
import ScalarScript.Proofs.Operand

/-! Chunks in the making. Whatever steps a chunk is built by, and whichever of them fail on the way, its code
and its table grow at their ends only, no two entries have the same key, and every push refers to the entry of
the constant that it was laid out for. A run of such a chunk never comes to a malformed instruction. -/
namespace ScalarScript

open Chunk

/-! ### What is laid out -/

/-- A piece of code before it has a table: the push of a constant, or an opcode. -/
inductive Emission where
  | push (c : Constant)
  | opcode (op : Opcode)

/-- The instruction of an emission over a table. -/
inductive Emission.Written (table : List Constant) : Emission → Instruction → Prop
  | push {c : Constant} {index : ℕ} (hi : index < 65536) (hc : table[index]? = some c) :
    Written table (.push c) (.push index)
  | opcode {op : Opcode} (h : op ≠ .pushConst) : Written table (.opcode op) (.plain op)

def Token.emission : Token → Emission
  | operand c => .push c
  | operator op => .opcode (.binary op)
  | halt => .opcode .halt

namespace Emission

variable {table longer : List Constant} {m : Emission} {i : Instruction}

theorem Written.whole (h : m.Written table i) : i.Whole := by
  cases h with
  | push => exact Instruction.whole_push _
  | opcode h => exact Instruction.whole_plain h

theorem Written.of_isPrefix (h : m.Written table i) (hp : table <+: longer) : m.Written longer i := by
  cases h with
  | push hi hc => exact .push hi (getElem?_of_isPrefix hp hc)
  | opcode h => exact .opcode h

theorem whole_of_forall₂ {laid : List Emission} {instructions : List Instruction}
    (h : List.Forall₂ (Written table) laid instructions) : ∀ i ∈ instructions, i.Whole := by
  induction h with
  | nil => exact List.forall_mem_nil _
  | cons h _ ih => exact List.forall_mem_cons.2 ⟨h.whole, ih⟩

/-- An instruction that was laid out makes no fault of the machine but an underflow. -/
theorem Written.fault_of_execute (h : m.Written table i) {stack rest : List Value} {fault : Fault}
    (he : i.execute table stack = .error (.error fault, rest)) : fault = .stackUnderflow ∨ fault.family ≠ .machine := by
  obtain hf | ⟨index, hp, hx, hn, -⟩ | ⟨ho, -⟩ := h.whole.fault_of_execute he
  · exact hf
  · cases h with
    | push hi hc =>
      rw [Instruction.index?_push hi] at hx
      cases hx
      cases hc.symm.trans hn
    | opcode h =>
      rw [Instruction.plain_is] at hp
      exact absurd (of_decide_eq_true hp) h
  · cases h with
    | push => cases ho.symm.trans (Opcode.ofByte?_toByte .pushConst)
    | @opcode op => cases ho.symm.trans (Opcode.ofByte?_toByte op)

theorem fault_of_executeAll {laid : List Emission} {instructions : List Instruction}
    (h : List.Forall₂ (Written table) laid instructions) {stack rest : List Value} {fault : Fault}
    (he : executeAll table instructions stack = .error (.error fault, rest)) :
    fault = .stackUnderflow ∨ fault.family ≠ .machine := by
  induction h generalizing stack with
  | nil => cases he
  | @cons m i _ _ h _ ih =>
    rw [executeAll_cons] at he
    cases hi : i.execute table stack with
    | ok next =>
      rw [hi] at he
      exact ih he
    | error ending =>
      rw [hi] at he
      cases he
      exact h.fault_of_execute hi

end Emission

/-! ### Growth -/

/-- Every entry has a key, and no two have the same. -/
structure Distinct (table : List Constant) : Prop where
  keyed : Keyed table
  nodup : table.Nodup

theorem Distinct.extend {table : List Constant} (h : Distinct table) {c : Constant} (hc : c.HasKey) :
    Distinct (extend table c) where
  keyed := keyed_extend h.keyed hc
  nodup := by
    unfold ScalarScript.extend
    split
    · exact h.nodup
    · exact List.nodup_append'.2 ⟨h.nodup, List.nodup_singleton c, by simpa using ‹c ∉ table›⟩

theorem Distinct.nodup_keys {table : List Constant} (h : Distinct table) : (table.map (·.key)).Nodup := by
  refine h.nodup.map_on fun c hc d hd he => ?_
  obtain ⟨key, hkey⟩ := h.keyed c hc
  exact Constant.key_inj hkey (he.symm.trans hkey)

/-- The chunk grew at the ends of its code and its table, its code by the emissions. -/
structure Chunk.Grows (before : Chunk) (laid : List Emission) (after : Chunk) : Prop where
  constants : before.constants <+: after.constants
  distinct : Distinct after.constants
  code : ∃ instructions, List.Forall₂ (Emission.Written after.constants) laid instructions ∧
    after.code = before.code ++ assemble instructions

namespace Chunk.Grows

variable {before middle after : Chunk} {laid more : List Emission}

theorem refl (h : Distinct before.constants) : before.Grows [] before :=
  ⟨List.prefix_rfl, h, [], .nil, (List.append_nil _).symm⟩

theorem trans (h : before.Grows laid middle) (h' : middle.Grows more after) : before.Grows (laid ++ more) after := by
  obtain ⟨first, hfirst, hmiddle⟩ := h.code
  obtain ⟨second, hsecond, hafter⟩ := h'.code
  refine ⟨h.constants.trans h'.constants, h'.distinct, first ++ second, ?_, ?_⟩
  · exact List.rel_append (hfirst.imp fun _ _ hw => hw.of_isPrefix h'.constants) hsecond
  · rw [hafter, hmiddle, assemble_append, List.append_assoc]

theorem extend (h : Distinct before.constants) {c : Constant} (hc : c.HasKey) :
    before.Grows [] { before with constants := extend before.constants c } :=
  ⟨prefix_extend, h.extend hc, [], .nil, (List.append_nil _).symm⟩

/-- One more instruction. -/
theorem append (h : before.Grows laid middle) {m : Emission} {i : Instruction}
    (hw : m.Written middle.constants i) :
    before.Grows (laid ++ [m]) { middle with code := middle.code ++ i.bytes } :=
  h.trans ⟨List.prefix_rfl, h.distinct, [i], .cons hw .nil, by simp [assemble]⟩

theorem prefix_code (h : before.Grows laid after) : before.code <+: after.code := by
  obtain ⟨instructions, -, hcode⟩ := h.code
  exact ⟨assemble instructions, hcode.symm⟩

end Chunk.Grows

/-! ### Steps -/

/-- The state that an action leaves, whatever it comes to. -/
def Stateful.final {σ α : Type} (action : Stateful σ α) (start : σ) : σ :=
  match action start with
  | .ok _ s => s
  | .error _ s => s

open Stateful (final)

/-- What compilation of the tree lays out, up to where it fails. -/
def Expr.laid : Expr → Chunk → List Emission
  | constant c, chunk =>
    match emitConstant c chunk with
    | .ok .. => [.push c]
    | .error .. => []
  | binary symbol l r, chunk =>
    match Operator.ofSymbol? symbol, l.emit chunk with
    | none, _ => []
    | some _, .error .. => l.laid chunk
    | some op, .ok _ middle =>
      match r.emit middle with
      | .error .. => l.laid chunk ++ r.laid middle
      | .ok .. => l.laid chunk ++ r.laid middle ++ [.opcode (.binary op)]
  | native _, _ => []

namespace Build

/-- Anything that may be done to a chunk in the making. -/
inductive Step where
  | addConstant (c : Constant)
  | emitConstant (c : Constant)
  | emitOpcode (op : Opcode) (h : op ≠ .pushConst)
  | emit (e : Expr)

namespace Step

def action : Step → Build Unit
  | addConstant c => do
    let _ ← Chunk.addConstant c
  | emitConstant c => Chunk.emitConstant c
  | emitOpcode op _ => do
    let _ ← Chunk.emitOpcode op
  | emit e => e.emit

/-- What the step is to lay out. -/
def program : Step → List Emission
  | addConstant _ => []
  | emitConstant c => [.push c]
  | emitOpcode op _ => [.opcode op]
  | emit e => e.postorder.map Token.emission

/-- What the step lays out on the chunk, up to where it fails. -/
def laid : Step → Chunk → List Emission
  | addConstant _, _ => []
  | emitConstant c, chunk => (Expr.constant c).laid chunk
  | emitOpcode op _, _ => [.opcode op]
  | emit e, chunk => e.laid chunk

end Step
end Build

open Chunk (Grows)

namespace Expr

theorem grows_emit_constant {chunk : Chunk} (hd : Distinct chunk.constants) (c : Constant) :
    chunk.Grows ((constant c).laid chunk) (final (constant c).emit chunk) := by
  by_cases hc : c.HasKey
  · have hgrown := Grows.extend hd hc
    have hadd := addOperand_of_keyed hc hd.keyed
    simp only [final, laid, emit, emitConstant_eq, hadd]
    by_cases hi : maxIndex < chunk.constants.idxOf c
    · simp only [if_pos hi]
      exact hgrown
    · simp only [if_neg hi]
      have hentry : (extend chunk.constants c)[chunk.constants.idxOf c]? = some c := by
        rw [← idxOf_extend]
        exact List.getElem?_idxOf (mem_extend.2 (.inr rfl))
      exact hgrown.append (.push (Nat.lt_succ_of_le (Nat.not_lt.1 hi)) hentry)
  · obtain ⟨fault, hf⟩ := addConstant_of_not_hasKey hc chunk
    simp only [final, laid, emit, emitConstant_eq, addOperand_eq, hf]
    exact .refl hd

theorem grows_emit (e : Expr) {chunk : Chunk} (hd : Distinct chunk.constants) :
    chunk.Grows (e.laid chunk) (final e.emit chunk) := by
  induction e generalizing chunk with
  | constant c => exact grows_emit_constant hd c
  | native x => exact .refl hd
  | binary symbol l r ihl ihr =>
    cases ho : Operator.ofSymbol? symbol with
    | none =>
      simp only [final, laid, emit, ho]
      exact .refl hd
    | some op =>
      have hleft := ihl hd
      simp only [final, laid, emit, ho, bind, EStateM.bind] at hleft ⊢
      cases hl : l.emit chunk with
      | error fault middle =>
        simp only [hl] at hleft ⊢
        exact hleft
      | ok _ middle =>
        simp only [hl] at hleft ⊢
        have hright := ihr hleft.distinct
        rw [final] at hright
        cases hr : r.emit middle with
        | error fault last =>
          simp only [hr] at hright ⊢
          exact hleft.trans hright
        | ok _ last =>
          simp only [hr, emitOpcode_eq] at hright ⊢
          exact (hleft.trans hright).append (.opcode (by simp))

/-- What is laid out is the whole tree in postorder, or the beginning of it if compilation fails. -/
theorem laid_cases (e : Expr) (chunk : Chunk) :
    ((∃ after, e.emit chunk = .ok () after) ∧ e.laid chunk = e.postorder.map Token.emission) ∨
      (∃ fault after, e.emit chunk = .error fault after) ∧ e.laid chunk <+: e.postorder.map Token.emission := by
  induction e generalizing chunk with
  | constant c =>
    rw [laid, emit]
    cases emitConstant c chunk with
    | ok _ after => exact .inl ⟨⟨after, rfl⟩, rfl⟩
    | error fault after => exact .inr ⟨⟨fault, after, rfl⟩, List.nil_prefix⟩
  | native x => exact .inr ⟨⟨_, _, rfl⟩, List.nil_prefix⟩
  | binary symbol l r ihl ihr =>
    cases ho : Operator.ofSymbol? symbol with
    | none => exact .inr ⟨⟨_, _, by rw [emit, ho]; rfl⟩, by simp [laid, ho]⟩
    | some op =>
      obtain rfl := Operator.symbol_of_ofSymbol? ho
      simp only [laid, emit, ho, bind, EStateM.bind, postorder_binary, List.map_append]
      obtain ⟨⟨middle, hl⟩, hll⟩ | ⟨⟨fault, middle, hl⟩, hll⟩ := ihl chunk
      · obtain ⟨⟨last, hr⟩, hrl⟩ | ⟨⟨fault, last, hr⟩, hrl⟩ := ihr middle
        · simp only [hl, hr, hll, hrl, emitOpcode_eq]
          exact .inl ⟨⟨_, rfl⟩, rfl⟩
        · simp only [hl, hr, hll]
          exact .inr ⟨⟨fault, last, rfl⟩, (List.prefix_append_right_inj _).2 hrl |>.trans (List.prefix_append _ _)⟩
      · simp only [hl]
        exact .inr ⟨⟨fault, middle, rfl⟩, (hll.trans (List.prefix_append _ _)).trans (List.prefix_append _ _)⟩

end Expr

namespace Build

namespace Step

theorem action_addConstant (c : Constant) (chunk : Chunk) :
    (addConstant c).action chunk =
      match Chunk.addConstant c chunk with
      | .ok _ after => .ok () after
      | .error fault after => .error fault after := by
  simp only [action, bind, EStateM.bind]
  cases Chunk.addConstant c chunk <;> rfl

theorem action_emitOpcode {op : Opcode} (h : op ≠ .pushConst) (chunk : Chunk) :
    (emitOpcode op h).action chunk =
      .ok () { chunk with code := chunk.code ++ (Instruction.plain op).bytes } := by
  simp only [action, bind, EStateM.bind, Expr.emitOpcode_eq]
  rfl

theorem grows (s : Step) {chunk : Chunk} (hd : Distinct chunk.constants) :
    chunk.Grows (s.laid chunk) (final s.action chunk) := by
  cases s with
  | emitConstant c => exact Expr.grows_emit (.constant c) hd
  | emit e => exact e.grows_emit hd
  | emitOpcode op h =>
    rw [final, action_emitOpcode]
    exact (Grows.refl hd).append (.opcode h)
  | addConstant c =>
    rw [final, action_addConstant, laid]
    by_cases hc : c.HasKey
    · rw [addConstant_of_keyed hc hd.keyed]
      exact .extend hd hc
    · obtain ⟨fault, hf⟩ := addConstant_of_not_hasKey hc chunk
      rw [hf]
      exact .refl hd

/-- What a step lays out is its whole program, or the beginning of it if the step fails. -/
theorem laid_cases (s : Step) (chunk : Chunk) :
    ((∃ after, s.action chunk = .ok () after) ∧ s.laid chunk = s.program) ∨
      (∃ fault after, s.action chunk = .error fault after) ∧ s.laid chunk <+: s.program := by
  cases s with
  | emitConstant c => exact Expr.laid_cases (.constant c) chunk
  | emit e => exact e.laid_cases chunk
  | emitOpcode op h => exact .inl ⟨⟨_, action_emitOpcode h chunk⟩, rfl⟩
  | addConstant c =>
    rw [action_addConstant]
    cases Chunk.addConstant c chunk with
    | ok index after => exact .inl ⟨⟨after, rfl⟩, rfl⟩
    | error fault after => exact .inr ⟨⟨fault, after, rfl⟩, List.prefix_rfl⟩

end Step

/-! ### Drafts -/

/-- A chunk in the making, and what was laid out so far. -/
structure Draft where
  chunk : Chunk := {}
  laid : List Emission := []

namespace Draft

def next (d : Draft) (s : Step) : Draft := ⟨final s.action d.chunk, d.laid ++ s.laid d.chunk⟩

/-- The draft after some steps, those that failed included. -/
def build (steps : List Step) : Draft := steps.foldl next {}

/-- No two entries have the same key, and the code consists of what was laid out, every push referring to the
entry of its constant. -/
structure WellFormed (d : Draft) : Prop where
  keyed : Keyed d.chunk.constants
  distinct : (d.chunk.constants.map (·.key)).Nodup
  code : List.Forall₂ (Emission.Written d.chunk.constants) d.laid (decode d.chunk.code)

theorem build_concat (steps : List Step) (s : Step) : build (steps ++ [s]) = (build steps).next s := by
  rw [build, List.foldl_append]
  rfl

theorem grows_next {d : Draft} (h : Grows {} d.laid d.chunk) (s : Step) :
    d.chunk.Grows (s.laid d.chunk) (d.next s).chunk ∧ Grows {} (d.next s).laid (d.next s).chunk :=
  ⟨s.grows h.distinct, h.trans (s.grows h.distinct)⟩

theorem grows_build (steps : List Step) : Grows {} (build steps).laid (build steps).chunk := by
  induction steps using List.reverseRecOn with
  | nil => exact .refl ⟨List.forall_mem_nil _, List.nodup_nil⟩
  | append_singleton steps s ih =>
    rw [build_concat]
    exact (grows_next ih s).2

theorem wellFormed_of_grows {d : Draft} (h : Grows {} d.laid d.chunk) : d.WellFormed := by
  obtain ⟨instructions, hw, hcode⟩ := h.code
  have hd : decode d.chunk.code = instructions := by
    rw [hcode]
    exact decode_assemble (Stream.of_whole (Emission.whole_of_forall₂ hw))
  exact ⟨h.distinct.keyed, h.distinct.nodup_keys, hd ▸ hw⟩

theorem WellFormed.run_cases {d : Draft} (h : d.WellFormed) (m : Machine) :
    (∃ v after, Machine.run d.chunk m = .ok v after) ∨
      ∃ fault after, Machine.run d.chunk m = .error fault after ∧
        (fault = .stackUnderflow ∨ fault.family ≠ .machine) := by
  obtain ⟨ip, hrun⟩ := Machine.run_eq_execute d.chunk m
  rw [hrun, Chunk.execute]
  cases he : executeAll d.chunk.constants (decode d.chunk.code) m.stack with
  | ok stack => cases stack <;> exact .inl ⟨_, _, rfl⟩
  | error ending =>
    obtain ⟨outcome, stack⟩ := ending
    cases outcome with
    | ok v => exact .inl ⟨_, _, rfl⟩
    | error fault => exact .inr ⟨fault, _, rfl, Emission.fault_of_executeAll h.code he⟩

/-- Every draft is well formed, and one step more lets code and table grow at their ends by what the step lays
out. A run of the chunk, on any machine, never fails for an operand, an index or an opcode. -/
theorem wellFormed_build (steps : List Step) :
    (build steps).WellFormed ∧
      (∀ s : Step, (build steps).chunk.code <+: (build (steps ++ [s])).chunk.code ∧
        (build steps).chunk.constants <+: (build (steps ++ [s])).chunk.constants ∧
        (build (steps ++ [s])).laid = (build steps).laid ++ s.laid (build steps).chunk ∧
        (((∃ after, s.action (build steps).chunk = .ok () after) ∧ s.laid (build steps).chunk = s.program) ∨
          (∃ fault after, s.action (build steps).chunk = .error fault after) ∧
            s.laid (build steps).chunk <+: s.program)) ∧
      ∀ m : Machine, (∃ v after, Machine.run (build steps).chunk m = .ok v after) ∨
        ∃ fault after, Machine.run (build steps).chunk m = .error fault after ∧
          (fault = .stackUnderflow ∨ fault.family ≠ .machine) := by
  have hgrows := grows_build steps
  have hformed := wellFormed_of_grows hgrows
  refine ⟨hformed, fun s => ?_, hformed.run_cases⟩
  have hnext := (grows_next hgrows s).1
  rw [build_concat]
  exact ⟨hnext.prefix_code, hnext.constants, rfl, s.laid_cases _⟩

end Draft
end Build
end ScalarScript
