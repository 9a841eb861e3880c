import ScalarScript.Bytecode.Compile
import ScalarScript.Proofs.Bytecode.Execution
import ScalarScript.Proofs.Bytecode.Table

/-! What compiled code is and what it does. A compiled chunk lays the tree out in postorder over the table
of its constants. Running it gives the outcome of evaluating the tree, over any stack; a failure leaves
the values behind that were waiting for their right operands. -/
namespace ScalarScript

/-! ### Trees in postorder -/

/-- Trees of constants and known operators. -/
inductive Expr.WellFormed : Expr → Prop
  | constant (c : Constant) : WellFormed (.constant c)
  | binary (op : Operator) {l r : Expr} (hl : l.WellFormed) (hr : r.WellFormed) :
    WellFormed (.binary op.symbol l r)

theorem Expr.WellFormed.of_binary {op : Operator} {l r : Expr} (h : (Expr.binary op.symbol l r).WellFormed) :
    l.WellFormed ∧ r.WellFormed := by
  generalize hs : op.symbol = symbol at h
  cases h with
  | binary op' hl hr => exact ⟨hl, hr⟩

inductive Token where
  | operand (c : Constant)
  | operator (op : Operator)
  | halt

namespace Token

def operand? : Token → Option Constant
  | operand c => some c
  | _ => none

/-- The instruction of a token over a table that has its constant. -/
noncomputable def encode (table : List Constant) : Token → Instruction
  | operand c => .push (table.idxOf c)
  | operator op => .plain (.binary op)
  | halt => .plain .halt

end Token

def operands (tokens : List Token) : List Constant := tokens.filterMap Token.operand?

namespace Expr

/-- The constants at the leaves, from left to right. -/
def constants : Expr → List Constant
  | constant c => [c]
  | binary _ l r => l.constants ++ r.constants
  | native _ => []

def postorder : Expr → List Token
  | constant c => [.operand c]
  | binary symbol l r => l.postorder ++ r.postorder ++ ((Operator.ofSymbol? symbol).map .operator).toList
  | native _ => []

def program (e : Expr) : List Token := e.postorder ++ [.halt]

/-- The constants of the tree, each once, in order of first occurrence. -/
noncomputable def table (e : Expr) : List Constant := e.constants.eraseDups

/-- The keys of the constants at the leaves. -/
def keys (e : Expr) : List (Tag × String) := e.constants.filterMap (·.key.toOption)

theorem length_table {e : Expr} (hk : Keyed e.constants) : e.table.length = e.keys.eraseDups.length :=
  (length_eraseDups_keys hk).symm

noncomputable def layout (e : Expr) : Chunk := ⟨assemble (e.program.map (Token.encode e.table)), e.table⟩

@[simp] theorem postorder_binary (op : Operator) (l r : Expr) :
    (binary op.symbol l r).postorder = l.postorder ++ r.postorder ++ [.operator op] := by
  simp [postorder]

theorem operands_postorder (e : Expr) : operands e.postorder = e.constants := by
  induction e with
  | constant c => rfl
  | native x => rfl
  | binary symbol l r ihl ihr =>
    have hs : operands ((Operator.ofSymbol? symbol).map Token.operator).toList = [] := by
      cases Operator.ofSymbol? symbol <;> rfl
    rw [operands] at hs ihl ihr ⊢
    simp only [postorder, List.filterMap_append, hs, ihl, ihr, List.append_nil, constants]

theorem operands_program (e : Expr) : operands e.program = e.constants := by
  rw [program, operands, List.filterMap_append, ← operands, operands_postorder]
  exact List.append_nil _

end Expr

theorem mem_operands {tokens : List Token} {c : Constant} : c ∈ operands tokens ↔ .operand c ∈ tokens := by
  rw [operands, List.mem_filterMap]
  constructor
  · rintro ⟨t, ht, hc⟩
    cases t <;> cases hc
    exact ht
  · exact fun h => ⟨_, h, rfl⟩

namespace Token

theorem whole_encode (table : List Constant) (t : Token) : (t.encode table).Whole := by
  cases t with
  | operand c => exact Instruction.whole_push _
  | operator op => exact Instruction.whole_plain (by simp)
  | halt => exact Instruction.whole_plain (by simp)

theorem whole_of_mem_map_encode {table : List Constant} {tokens : List Token} :
    ∀ i ∈ tokens.map (encode table), i.Whole := by
  simp only [List.mem_map]
  rintro _ ⟨t, -, rfl⟩
  exact t.whole_encode table

/-- Growth of the table at its end does not move the constants that are there. -/
theorem map_encode_of_isPrefix {first second : List Constant} (h : first <+: second) {tokens : List Token}
    (ht : operands tokens ⊆ first) : tokens.map (encode second) = tokens.map (encode first) := by
  refine List.map_congr_left fun t hm => ?_
  cases t with
  | operand c => rw [encode, encode, h.idxOf_eq_of_mem (ht (mem_operands.2 hm))]
  | operator op => rfl
  | halt => rfl

end Token

theorem decode_layout (e : Expr) : decode e.layout.code = e.program.map (Token.encode e.table) :=
  decode_assemble (Stream.of_whole Token.whole_of_mem_map_encode)

/-! ### Compilation -/

open Chunk

theorem emitBytes_eq (bytes : List UInt8) (chunk : Chunk) :
    emitBytes bytes chunk = .ok () { chunk with code := chunk.code ++ bytes } := rfl

theorem emitConstant_eq (c : Constant) (chunk : Chunk) :
    emitConstant c chunk =
      match addOperand c chunk with
      | .ok index after => .ok () { after with code := after.code ++ (Instruction.push index).bytes }
      | .error fault after => .error fault after := by
  simp only [emitConstant, bind, EStateM.bind]
  cases addOperand c chunk <;> rfl

namespace Expr

theorem emitOpcode_eq (op : Opcode) (chunk : Chunk) :
    emitOpcode op chunk = .ok chunk.code.length { chunk with code := chunk.code ++ (Instruction.plain op).bytes } := by
  simp only [emitOpcode, bind, EStateM.bind, emitBytes_eq]
  simp [get, getThe, MonadStateOf.get, EStateM.get, pure, EStateM.pure, Instruction.plain, Instruction.bytes]

theorem emit_binary_ok_iff {op : Operator} {l r : Expr} {chunk after : Chunk} :
    (binary op.symbol l r).emit chunk = .ok () after ↔
      ∃ middle last, l.emit chunk = .ok () middle ∧ r.emit middle = .ok () last ∧
        after = { last with code := last.code ++ (Instruction.plain (.binary op)).bytes } := by
  simp only [emit, Operator.ofSymbol?_symbol, bind, EStateM.bind]
  cases l.emit chunk with
  | error fault middle => simp
  | ok _ middle =>
    cases hr : r.emit middle with
    | error fault last => simp [hr]
    | ok _ last => simp [hr, emitOpcode_eq, pure, EStateM.pure, eq_comm]

theorem emit_constant_ok_iff {c : Constant} {cs : List Constant} {code : List UInt8} {after : Chunk} (hk : Keyed cs)
    (hl : cs.eraseDups.length ≤ maxIndex + 1) :
    (constant c).emit ⟨code, cs.eraseDups⟩ = .ok () after ↔
      c.HasKey ∧ (cs ++ [c]).eraseDups.length ≤ maxIndex + 1 ∧
        after = ⟨code ++ (Token.encode (cs ++ [c]).eraseDups (.operand c)).bytes, (cs ++ [c]).eraseDups⟩ := by
  rw [emit, emitConstant_eq, eraseDups_concat, Token.encode, idxOf_extend]
  by_cases hc : c.HasKey
  · rw [addOperand_of_keyed hc (keyed_eraseDups.2 hk)]
    by_cases hi : maxIndex < cs.eraseDups.idxOf c
    · have : cs.eraseDups.idxOf c < (extend cs.eraseDups c).length := idxOf_lt_length_extend
      simp only [if_pos hi, reduceCtorEq, false_iff]
      omega
    · have := length_extend_le_of_idxOf hl (Nat.not_lt.1 hi)
      simp only [if_neg hi, EStateM.Result.ok.injEq, true_and, hc, this]
      exact eq_comm
  · cases hk : c.key with
    | ok key => exact absurd ⟨key, hk⟩ hc
    | error fault =>
      rw [addOperand_eq, addConstant_eq, hk]
      simp [hc]

/-- The left operand's code was laid out over a table that the right operand's constants then joined. -/
theorem assemble_postorder_binary (op : Operator) (l r : Expr) (cs : List Constant) :
    assemble ((binary op.symbol l r).postorder.map (Token.encode (cs ++ (l.constants ++ r.constants)).eraseDups)) =
      assemble (l.postorder.map (Token.encode (cs ++ l.constants).eraseDups)) ++
        assemble (r.postorder.map (Token.encode (cs ++ l.constants ++ r.constants).eraseDups)) ++
        (Instruction.plain (.binary op)).bytes := by
  have hl : operands l.postorder ⊆ (cs ++ l.constants).eraseDups := by
    intro c hc
    rw [operands_postorder] at hc
    exact List.mem_eraseDups.2 (List.mem_append_right cs hc)
  have hp := prefix_eraseDups (cs ++ l.constants) r.constants
  rw [postorder_binary, List.map_append, List.map_append, assemble_append, assemble_append, ← List.append_assoc,
    Token.map_encode_of_isPrefix hp hl]
  simp [assemble, Token.encode]

/-- Compilation onto a table of earlier constants. -/
theorem emit_eq_ok_iff {e : Expr} {cs : List Constant} {code : List UInt8} {after : Chunk} (hk : Keyed cs)
    (hl : cs.eraseDups.length ≤ maxIndex + 1) :
    e.emit ⟨code, cs.eraseDups⟩ = .ok () after ↔
      e.WellFormed ∧ Keyed e.constants ∧ (cs ++ e.constants).eraseDups.length ≤ maxIndex + 1 ∧
        after = ⟨code ++ assemble (e.postorder.map (Token.encode (cs ++ e.constants).eraseDups)),
          (cs ++ e.constants).eraseDups⟩ := by
  induction e generalizing cs code after with
  | constant c =>
    rw [emit_constant_ok_iff hk hl]
    simp [constants, postorder, assemble, Keyed, WellFormed.constant]
  | native x =>
    refine iff_of_false (fun h => by cases h) ?_
    rintro ⟨h, -⟩
    cases h
  | binary symbol l r ihl ihr =>
    cases ho : Operator.ofSymbol? symbol with
    | none =>
      refine iff_of_false (fun h => by simp only [emit, ho] at h; cases h) ?_
      rintro ⟨h, -⟩
      cases h with
      | binary op => simp at ho
    | some op =>
      obtain rfl := Operator.symbol_of_ofSymbol? ho
      rw [emit_binary_ok_iff, constants, assemble_postorder_binary]
      constructor
      · rintro ⟨middle, last, hm, ht, rfl⟩
        obtain ⟨hwl, hkl, hll, rfl⟩ := (ihl hk hl).1 hm
        obtain ⟨hwr, hkr, hlr, rfl⟩ := (ihr (keyed_append.2 ⟨hk, hkl⟩) hll).1 ht
        exact ⟨.binary op hwl hwr, keyed_append.2 ⟨hkl, hkr⟩, by simpa using hlr, by simp⟩
      · rintro ⟨hw, hke, hle, rfl⟩
        obtain ⟨hwl, hwr⟩ := hw.of_binary
        obtain ⟨hkl, hkr⟩ := keyed_append.1 hke
        rw [← List.append_assoc] at hle ⊢
        have hll := (prefix_eraseDups (cs ++ l.constants) r.constants).length_le.trans hle
        exact ⟨_, _, (ihl hk hl).2 ⟨hwl, hkl, hll, rfl⟩,
          (ihr (keyed_append.2 ⟨hk, hkl⟩) hll).2 ⟨hwr, hkr, hle, rfl⟩, by simp⟩

theorem compile_eq_ok_iff {e : Expr} {chunk : Chunk} :
    e.compile = .ok chunk ↔
      e.WellFormed ∧ Keyed e.constants ∧ e.table.length ≤ maxIndex + 1 ∧ chunk = e.layout := by
  have hcode : e.layout =
      ⟨assemble (e.postorder.map (Token.encode e.table)) ++ (Instruction.plain .halt).bytes, e.table⟩ := by
    simp [layout, program, assemble, Token.encode]
  have hemit (after : Chunk) : e.emit {} = .ok () after ↔
      e.WellFormed ∧ Keyed e.constants ∧ e.table.length ≤ maxIndex + 1 ∧
        after = ⟨assemble (e.postorder.map (Token.encode e.table)), e.table⟩ :=
    emit_eq_ok_iff (List.forall_mem_nil _) (Nat.zero_le _)
  rw [hcode, compile, Stateful.after]
  simp only [EStateM.run, bind, EStateM.bind]
  cases he : e.emit {} with
  | error fault after =>
    refine iff_of_false (by simp) ?_
    rintro ⟨hw, hk, hl, -⟩
    exact absurd (he.symm.trans ((hemit _).2 ⟨hw, hk, hl, rfl⟩)) (by simp)
  | ok _ after =>
    obtain ⟨hw, hk, hl, rfl⟩ := (hemit after).1 he
    simp only [emitOpcode_eq, Except.ok.injEq]
    exact ⟨fun h => ⟨hw, hk, hl, h.symm⟩, fun h => h.2.2.2.symm⟩

end Expr

/-! ### Execution of compiled code -/

namespace Expr

/-- The values that a failing evaluation leaves waiting for their right operands, innermost first. -/
def leftovers : Expr → List Value
  | binary _ l r =>
    match l.eval with
    | .error _ => l.leftovers
    | .ok a =>
      match r.eval with
      | .error _ => r.leftovers ++ [a]
      | .ok _ => []
  | _ => []

theorem eval_binary (op : Operator) (l r : Expr) :
    (binary op.symbol l r).eval = do
      let a ← l.eval
      let b ← r.eval
      return (← op.apply a b).toValue := by
  rw [eval, Operator.ofSymbol?_symbol]

theorem executeAll_postorder {e : Expr} (hw : e.WellFormed) {table : List Constant} (ht : e.constants ⊆ table)
    (hl : table.length ≤ maxIndex + 1) (stack : List Value) :
    executeAll table (e.postorder.map (Token.encode table)) stack =
      match e.eval with
      | .ok v => .ok (v :: stack)
      | .error fault => .error (.error fault, e.leftovers ++ stack) := by
  induction hw generalizing stack with
  | constant c =>
    have hm : c ∈ table := ht (by simp [constants])
    have hi : table.idxOf c < 65536 := Nat.lt_of_lt_of_le (List.idxOf_lt_length_of_mem hm) hl
    rw [postorder, List.map_singleton, executeAll_cons, Token.encode,
      Instruction.execute_push_of_some hi (List.getElem?_idxOf hm), eval]
    cases c.toValue <;> rfl
  | @binary op l r hwl hwr ihl ihr =>
    have hcl : l.constants ⊆ table := fun c hc => ht (List.mem_append_left _ hc)
    have hcr : r.constants ⊆ table := fun c hc => ht (List.mem_append_right _ hc)
    rw [postorder_binary, List.map_append, List.map_append, executeAll_append, executeAll_append, ihl hcl, eval_binary,
      leftovers]
    cases l.eval with
    | error fault => rfl
    | ok a =>
      simp only [bind, Except.bind, ihr hcr]
      cases r.eval with
      | error fault => simp
      | ok b =>
        simp only [List.map_singleton, executeAll_cons, Token.encode, Instruction.execute_operator]
        cases op.apply a b <;> rfl

/-- A run of compiled code comes to what evaluation comes to. -/
theorem execute_layout {e : Expr} (hw : e.WellFormed) (hl : e.table.length ≤ maxIndex + 1) (stack : List Value) :
    e.layout.execute stack =
      match e.eval with
      | .ok v => (.ok v, stack)
      | .error fault => (.error fault, e.leftovers ++ stack) := by
  have ht : e.constants ⊆ e.table := fun c hc => List.mem_eraseDups.2 hc
  rw [Chunk.execute, decode_layout, program, List.map_append, executeAll_append]
  rw [show e.layout.constants = e.table from rfl, executeAll_postorder hw ht hl]
  cases e.eval with
  | error fault => rfl
  | ok v =>
    simp only [bind, Except.bind, List.map_singleton, executeAll_cons, Token.encode, Instruction.execute_halt]
    rfl

theorem run_layout {e : Expr} (hw : e.WellFormed) (hl : e.table.length ≤ maxIndex + 1) : e.layout.run = e.eval := by
  rw [Chunk.run_eq_execute, execute_layout hw hl]
  cases e.eval <;> rfl

theorem run_of_compile {e : Expr} {chunk : Chunk} (h : e.compile = .ok chunk) : chunk.run = e.eval := by
  obtain ⟨hw, -, hl, rfl⟩ := compile_eq_ok_iff.1 h
  exact run_layout hw hl

end Expr
end ScalarScript
