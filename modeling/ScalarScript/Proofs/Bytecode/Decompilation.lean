import ScalarScript.Proofs.Bytecode.Compilation

/-! Compiled code determines its tree. Executed over trees instead of values, the code of a tree builds that
tree again. Its table holds the keys of the tree's constants, each once, in order of first occurrence, and no
entry is idle. -/
namespace ScalarScript

/-! ### Execution over trees -/

namespace Instruction

/-- One instruction over a stack of trees, top first. A push puts a leaf on top; an operator makes a node of
the two trees on top, the upper one being its right operand. Other instructions build nothing. -/
def build? (table : List Constant) (i : Instruction) (trees : List Expr) : Option (List Expr) :=
  match Opcode.ofByte? i.opcode, trees with
  | some .pushConst, _ => (i.index?.bind (table[·]?)).map (.constant · :: trees)
  | some (.binary op), r :: l :: below => some (.binary op.symbol l r :: below)
  | _, _ => none

theorem build?_push {table : List Constant} {index : ℕ} (hi : index < 65536) {c : Constant}
    (hc : table[index]? = some c) (trees : List Expr) :
    (push index).build? table trees = some (.constant c :: trees) := by
  have ho : Opcode.ofByte? (push index).opcode = some .pushConst := Opcode.ofByte?_toByte .pushConst
  simp only [build?, ho, index?_push hi, Option.bind_some, hc, Option.map_some]

theorem build?_operator (table : List Constant) (op : Operator) (l r : Expr) (below : List Expr) :
    (plain (.binary op)).build? table (r :: l :: below) = some (.binary op.symbol l r :: below) := by
  have ho : Opcode.ofByte? (plain (.binary op)).opcode = some (.binary op) := Opcode.ofByte?_toByte (.binary op)
  simp only [build?, ho]

end Instruction

/-- Instructions one after another, up to the first `halt`. -/
def buildAll? (table : List Constant) : List Instruction → List Expr → Option (List Expr)
  | [], trees => some trees
  | i :: rest, trees => if i.is .halt then some trees else (i.build? table trees).bind (buildAll? table rest)

/-- The trees that a chunk builds. -/
def Chunk.trees? (chunk : Chunk) : Option (List Expr) := buildAll? chunk.constants (decode chunk.code) []

/-! ### Trees built by compiled code -/

theorem buildAll?_cons {table : List Constant} {i : Instruction} (h : i.is .halt = false) (rest : List Instruction)
    (trees : List Expr) : buildAll? table (i :: rest) trees = (i.build? table trees).bind (buildAll? table rest) := by
  rw [buildAll?, h]
  rfl

/-- The code of a tree puts the tree on top, whatever lies below and whatever follows. -/
theorem buildAll?_postorder {e : Expr} (hw : e.WellFormed) {table : List Constant} (ht : e.constants ⊆ table)
    (hl : table.length ≤ Chunk.maxIndex + 1) (rest : List Instruction) (trees : List Expr) :
    buildAll? table (e.postorder.map (Token.encode table) ++ rest) trees = buildAll? table rest (e :: trees) := by
  induction hw generalizing rest trees with
  | constant c =>
    have hm : c ∈ table := ht (by simp [Expr.constants])
    have hi : table.idxOf c < 65536 := (List.idxOf_lt_length_of_mem hm).trans_le hl
    have hpush : (Instruction.push (table.idxOf c)).is .halt = false := rfl
    rw [Expr.postorder, List.map_singleton, List.singleton_append, Token.encode, buildAll?_cons hpush,
      Instruction.build?_push hi (List.getElem?_idxOf hm), Option.bind_some]
  | @binary op l r _ _ ihl ihr =>
    have hcl : l.constants ⊆ table := fun c hc => ht (List.mem_append_left _ hc)
    have hcr : r.constants ⊆ table := fun c hc => ht (List.mem_append_right _ hc)
    have hop : (Instruction.plain (.binary op)).is .halt = false := by simp [Instruction.plain_is]
    rw [Expr.postorder_binary, List.map_append, List.map_append, List.append_assoc, List.append_assoc, ihl hcl, ihr hcr,
      List.map_singleton, List.singleton_append, Token.encode, buildAll?_cons hop, Instruction.build?_operator,
      Option.bind_some]

namespace Expr

theorem trees?_layout {e : Expr} (hw : e.WellFormed) (hl : e.table.length ≤ Chunk.maxIndex + 1) :
    e.layout.trees? = some [e] := by
  have ht : e.constants ⊆ e.table := fun c hc => List.mem_eraseDups.2 hc
  rw [Chunk.trees?, decode_layout, program, List.map_append, show e.layout.constants = e.table from rfl,
    buildAll?_postorder hw ht hl]
  rfl

theorem map_key_table {e : Expr} (hk : Keyed e.constants) : e.table.map (·.key) = e.keys.eraseDups.map .ok :=
  map_key_eraseDups hk

/-- The code pushes every entry of its table. -/
theorem push_mem_decode_layout (e : Expr) {index : ℕ} (hi : index < e.table.length) :
    .push index ∈ decode e.layout.code := by
  have hm : e.table[index] ∈ e.constants := List.mem_eraseDups.1 (List.getElem_mem hi)
  have hn : e.table.Nodup := nodup_eraseDups e.constants
  rw [← operands_program] at hm
  rw [decode_layout]
  refine List.mem_map.2 ⟨.operand e.table[index], mem_operands.1 hm, ?_⟩
  rw [Token.encode, hn.idxOf_getElem]

/-- Compiled code is the tree in postorder and a `halt`. It builds the tree and comes of no other tree, over a
table of the tree's keys, each once in order of first occurrence and each in use. -/
theorem decode_compile {e : Expr} {chunk : Chunk} (h : e.compile = .ok chunk) :
    decode chunk.code = (e.postorder ++ [Token.halt]).map (Token.encode chunk.constants) ∧
      chunk.trees? = some [e] ∧
      (∀ other : Expr, other.compile = .ok chunk → other = e) ∧
      chunk.constants.map (·.key) = e.keys.eraseDups.map .ok ∧
      chunk.constants.Nodup ∧
      ∀ index < chunk.constants.length, .push index ∈ decode chunk.code := by
  have htrees {t : Expr} (ht : t.compile = .ok chunk) : chunk.trees? = some [t] := by
    obtain ⟨hw, -, hl, rfl⟩ := compile_eq_ok_iff.1 ht
    exact trees?_layout hw hl
  obtain ⟨-, hk, -, hlayout⟩ := compile_eq_ok_iff.1 h
  refine ⟨?_, htrees h, fun other ho => ?_, ?_⟩
  · rw [hlayout]
    exact decode_layout e
  · simpa using (htrees ho).symm.trans (htrees h)
  · rw [hlayout]
    exact ⟨map_key_table hk, nodup_eraseDups e.constants, fun index hi => push_mem_decode_layout e hi⟩

/-- A text compared with its own continuation, the text being one entry. -/
theorem decode_compile_of_texts :
    (⟨[5, 0, 0, 5, 0, 1, 5, 0, 0, 0x60, 0x65, 0xff],
        [⟨.string, .string "a"⟩, ⟨.string, .string "b"⟩]⟩ : Chunk).trees? =
      some [binary "<" (constant ⟨.string, .string "a"⟩)
        (binary "+" (constant ⟨.string, .string "b"⟩) (constant ⟨.string, .string "a"⟩))] := by
  refine (decode_compile ?_).2.1
  rfl

end Expr
end ScalarScript
