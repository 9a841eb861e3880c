import ScalarScript.Proofs.Bytecode.Session
import ScalarScript.Proofs.Operand

/-! Refusal of trees, malformed or too large. Compilation looks at every node, and refuses a tree for the
first one in preorder that is malformed or brings in a key too many. Evaluation comes to the first malformed
node too, unless one of the operands that it evaluates before fails. -/
namespace ScalarScript

/-! ### Nodes in preorder -/

/-- A place in a tree: the way to it and the subtree there. -/
structure Node where
  path : List Side
  tree : Expr

namespace Node

def under (side : Side) (node : Node) : Node := { node with path := side :: node.path }

/-- The key that the node itself brings into the table. -/
def keys (node : Node) : List (Tag × String) :=
  match node.tree with
  | .constant c => (Expr.constant c).keys
  | _ => []

end Node

namespace Expr

/-- The nodes of a tree: each before its operands, the left operand's before the right one's. -/
def nodes : Expr → List Node
  | constant c => [⟨[], constant c⟩]
  | binary symbol l r => ⟨[], binary symbol l r⟩ :: (l.nodes.map (.under .left) ++ r.nodes.map (.under .right))
  | native x => [⟨[], native x⟩]

theorem keys_binary (symbol : String) (l r : Expr) : (binary symbol l r).keys = l.keys ++ r.keys :=
  List.filterMap_append

theorem flatMap_keys_nodes (e : Expr) : e.nodes.flatMap Node.keys = e.keys := by
  induction e with
  | constant c => exact List.flatMap_singleton _ _
  | native x => rfl
  | binary symbol l r ihl ihr =>
    have hu (side : Side) (nodes : List Node) : (nodes.map (.under side)).flatMap Node.keys = nodes.flatMap Node.keys :=
      List.flatMap_map ..
    rw [nodes, List.flatMap_cons, List.flatMap_append, hu, hu, ihl, ihr, keys_binary]
    rfl

/-! ### Offences -/

/-- What is wrong with the node itself: its symbol is unknown, or it is no node at all. -/
def malformed? (refusal : Kind → Fault) : Expr → Option Fault
  | constant _ => none
  | binary symbol _ _ => if (Operator.ofSymbol? symbol).isSome then none else some (.unknownOperator symbol)
  | native x => some (refusal x.kind)

/-- What compilation finds wrong with the node when some keys are known already: it is malformed, or it is
a constant that there is no room for. -/
def offence? (known : List (Tag × String)) : Expr → Option Fault
  | constant c => if 65536 < (known ++ (constant c).keys).eraseDups.length then some (.tooManyConstants 65536) else none
  | binary symbol l r => (binary symbol l r).malformed? .notCompilable
  | native x => (native x).malformed? .notCompilable

/-- The first offence among nodes, taken one after another. -/
def firstOffence? : List (Tag × String) → List Node → Option Fault
  | _, [] => none
  | known, node :: rest => (node.tree.offence? known).or (firstOffence? (known ++ node.keys) rest)

theorem family_malformed? {refusal : Kind → Fault} (hr : ∀ kind, (refusal kind).family = .compilation) {e : Expr}
    {fault : Fault} (h : e.malformed? refusal = some fault) : fault.family = .compilation := by
  cases e with
  | constant c => cases h
  | native x =>
    cases h
    exact hr x.kind
  | binary symbol l r =>
    simp only [malformed?] at h
    split at h <;> cases h
    rfl

theorem family_offence? {known : List (Tag × String)} {e : Expr} {fault : Fault} (h : e.offence? known = some fault) :
    fault.family = .compilation := by
  cases e with
  | constant c =>
    simp only [offence?] at h
    split at h <;> cases h
    rfl
  | binary | native =>
    rw [offence?] at h
    exact family_malformed? (fun _ => rfl) h

theorem family_firstOffence? {known : List (Tag × String)} {nodes : List Node} {fault : Fault}
    (h : firstOffence? known nodes = some fault) : fault.family = .compilation := by
  induction nodes generalizing known with
  | nil => cases h
  | cons node rest ih =>
    obtain h | ⟨-, h⟩ := Option.or_eq_some_iff.1 h
    · exact family_offence? h
    · exact ih h

theorem firstOffence?_append (known : List (Tag × String)) (first second : List Node) :
    firstOffence? known (first ++ second) =
      (firstOffence? known first).or (firstOffence? (known ++ first.flatMap Node.keys) second) := by
  induction first generalizing known with
  | nil => simp [firstOffence?]
  | cons node rest ih =>
    simp only [List.cons_append, firstOffence?, ih, List.flatMap_cons, List.append_assoc, Option.or_assoc]

theorem firstOffence?_map_under (side : Side) (known : List (Tag × String)) (nodes : List Node) :
    firstOffence? known (nodes.map (.under side)) = firstOffence? known nodes := by
  induction nodes generalizing known with
  | nil => rfl
  | cons node rest ih =>
    rw [List.map_cons, firstOffence?, firstOffence?, ih]
    rfl

/-- The first offence of a node over two operands. -/
theorem firstOffence?_binary (known : List (Tag × String)) (op : Operator) (l r : Expr) :
    firstOffence? known (binary op.symbol l r).nodes =
      (firstOffence? known l.nodes).or (firstOffence? (known ++ l.keys) r.nodes) := by
  have hu : (l.nodes.map (.under .left)).flatMap Node.keys = l.keys :=
    (List.flatMap_map ..).trans (flatMap_keys_nodes l)
  have ho : (binary op.symbol l r).offence? known = none := by simp [offence?, malformed?]
  rw [nodes, firstOffence?, ho, Option.none_or, firstOffence?_append, firstOffence?_map_under, firstOffence?_map_under]
  simp only [Node.keys, List.append_nil, hu]

/-! ### Compilation -/

open Chunk

/-- A constant finds no room when it would be one key more than operands can tell. -/
theorem emit_constant_of_keyed {c : Constant} (hc : c.HasKey) {cs : List Constant} (hk : Keyed cs)
    (hl : cs.eraseDups.length ≤ maxIndex + 1) (code : List UInt8) :
    ((cs ++ [c]).eraseDups.length ≤ maxIndex + 1 ∧ ∃ after, (constant c).emit ⟨code, cs.eraseDups⟩ = .ok () after) ∨
      maxIndex + 1 < (cs ++ [c]).eraseDups.length ∧
        ∃ after, (constant c).emit ⟨code, cs.eraseDups⟩ = .error (.tooManyConstants (maxIndex + 1)) after := by
  have hlt : cs.eraseDups.idxOf c < (extend cs.eraseDups c).length := idxOf_lt_length_extend
  have hle : cs.eraseDups.idxOf c ≤ cs.eraseDups.length := List.idxOf_le_length
  rw [emit, emitConstant_eq, addOperand_of_keyed hc (keyed_eraseDups.2 hk), eraseDups_concat]
  by_cases hi : maxIndex < cs.eraseDups.idxOf c
  · obtain hidx : cs.eraseDups.idxOf c = maxIndex + 1 := by omega
    refine .inr ⟨by omega, ?_⟩
    simp only [hidx]
    exact ⟨_, rfl⟩
  · refine .inl ⟨length_extend_le_of_idxOf hl (Nat.not_lt.1 hi), ?_⟩
    simp only [if_neg hi]
    exact ⟨_, rfl⟩

/-- Compilation onto a table of earlier constants comes to the first offence after their keys, if any. -/
theorem emit_of_keyed {e : Expr} (he : Keyed e.constants) {cs : List Constant} (hk : Keyed cs)
    (hl : cs.eraseDups.length ≤ maxIndex + 1) (code : List UInt8) :
    (firstOffence? (cs.filterMap (·.key.toOption)) e.nodes = none ∧
        ∃ after, e.emit ⟨code, cs.eraseDups⟩ = .ok () after) ∨
      ∃ fault after, firstOffence? (cs.filterMap (·.key.toOption)) e.nodes = some fault ∧
        e.emit ⟨code, cs.eraseDups⟩ = .error fault after := by
  induction e generalizing cs code with
  | constant c =>
    have hc : c.HasKey := he c List.mem_cons_self
    have hlen : (cs.filterMap (·.key.toOption) ++ (constant c).keys).eraseDups.length =
        (cs ++ [c]).eraseDups.length := by
      rw [keys, constants, ← List.filterMap_append]
      exact length_eraseDups_keys (keyed_append.2 ⟨hk, he⟩)
    rw [nodes, firstOffence?, firstOffence?, Option.or_none, offence?, hlen]
    obtain ⟨hle, h⟩ | ⟨hlt, after, h⟩ := emit_constant_of_keyed hc hk hl code
    · exact .inl ⟨if_neg (Nat.not_lt.2 hle), h⟩
    · exact .inr ⟨_, after, if_pos hlt, h⟩
  | native x => exact .inr ⟨_, _, rfl, rfl⟩
  | binary symbol l r ihl ihr =>
    cases ho : Operator.ofSymbol? symbol with
    | none =>
      refine .inr ⟨.unknownOperator symbol, ⟨code, cs.eraseDups⟩, ?_, ?_⟩
      · simp [nodes, firstOffence?, offence?, malformed?, ho]
      · rw [emit, ho]
        rfl
    | some op =>
      obtain rfl := Operator.symbol_of_ofSymbol? ho
      obtain ⟨hel, her⟩ := keyed_append.1 he
      rw [firstOffence?_binary]
      simp only [emit, ho, bind, EStateM.bind]
      obtain ⟨hfl, middle, hm⟩ | ⟨fault, middle, hfl, hm⟩ := ihl hel hk hl code
      · obtain ⟨-, -, hll, hmiddle⟩ := (emit_eq_ok_iff hk hl).1 hm
        obtain ⟨code', rfl⟩ : ∃ code', middle = ⟨code', (cs ++ l.constants).eraseDups⟩ := ⟨_, hmiddle⟩
        have hkeys : cs.filterMap (·.key.toOption) ++ l.keys = (cs ++ l.constants).filterMap (·.key.toOption) :=
          List.filterMap_append.symm
        rw [hfl, Option.none_or, hkeys, hm]
        obtain ⟨hfr, last, hr⟩ | ⟨fault, last, hfr, hr⟩ := ihr her (keyed_append.2 ⟨hk, hel⟩) hll code'
        · refine .inl ⟨hfr, ?_⟩
          simp only [hr, emitOpcode_eq]
          exact ⟨_, rfl⟩
        · exact .inr ⟨fault, last, hfr, by simp only [hr]⟩
      · exact .inr ⟨fault, middle, by rw [hfl, Option.some_or], by rw [hm]⟩

theorem compile_of_keyed {e : Expr} (he : Keyed e.constants) :
    (firstOffence? [] e.nodes = none ∧ ∃ chunk, e.compile = .ok chunk) ∨
      ∃ fault, firstOffence? [] e.nodes = some fault ∧ e.compile = .error fault := by
  rw [compile, Stateful.after]
  simp only [EStateM.run, bind, EStateM.bind]
  obtain ⟨hf, after, h⟩ | ⟨fault, after, hf, h⟩ := emit_of_keyed he (List.forall_mem_nil _) (Nat.zero_le _) []
  · refine .inl ⟨hf, ?_⟩
    rw [show e.emit {} = .ok () after from h]
    simp only [emitOpcode_eq]
    exact ⟨_, rfl⟩
  · refine .inr ⟨fault, hf, ?_⟩
    rw [show e.emit {} = .error fault after from h]

theorem exists_compile_iff {e : Expr} (he : Keyed e.constants) :
    (∃ chunk, e.compile = .ok chunk) ↔ e.WellFormed ∧ e.keys.eraseDups.length ≤ 65536 := by
  rw [← length_table he]
  constructor
  · rintro ⟨chunk, h⟩
    obtain ⟨hw, -, hl, -⟩ := compile_eq_ok_iff.1 h
    exact ⟨hw, hl⟩
  · rintro ⟨hw, hl⟩
    exact ⟨_, compile_eq_ok_iff.2 ⟨hw, he, hl, rfl⟩⟩

theorem compile_eq_error_iff {e : Expr} (he : Keyed e.constants) {fault : Fault} :
    e.compile = .error fault ↔ firstOffence? [] e.nodes = some fault := by
  obtain ⟨hf, chunk, hc⟩ | ⟨other, hf, hc⟩ := compile_of_keyed he
  · simp [hf, hc]
  · simp [hf, hc]

/-- The symbol of a node is looked at before its operands. -/
example : (binary "?" (native .none) (constant ⟨.int32, .int 7⟩)).compile = .error (.unknownOperator "?") := rfl

/-! ### Evaluation -/

/-- Well-formed trees evaluate to canonical values, unless there is a mismatch, a zero divisor or a constant
that cannot be converted. -/
theorem WellFormed.eval_cases {e : Expr} (hw : e.WellFormed) (hk : Keyed e.constants) :
    (∃ v, e.eval = .ok v ∧ v.Canonical) ∨
      ∃ fault, e.eval = .error fault ∧
        (fault.family = .mismatch ∨ fault.family = .division ∨ fault.family = .conversion) := by
  induction hw with
  | constant c =>
    rw [eval]
    cases hv : c.toValue with
    | ok v => exact .inl ⟨v, rfl, Constant.canonical_toValue hv⟩
    | error fault => exact .inr ⟨fault, rfl, .inr (.inr (Constant.family_toValue (hk c List.mem_cons_self) hv))⟩
  | binary op _ _ ihl ihr =>
    obtain ⟨hkl, hkr⟩ := keyed_append.1 hk
    rw [eval_binary]
    obtain ⟨a, ha, hac⟩ | ⟨fault, hf, hfam⟩ := ihl hkl
    · obtain ⟨b, hb, hbc⟩ | ⟨fault, hf, hfam⟩ := ihr hkr
      · rw [ha, hb]
        obtain ⟨outcome, ho, hp⟩ | ⟨fault, ho, hfam⟩ := op.apply_fits hac.fits hbc.fits
        · exact .inl ⟨outcome.toValue, by simp only [bind, Except.bind, ho]; rfl, hp.canonical⟩
        · exact .inr ⟨fault, by simp only [bind, Except.bind, ho], hfam.imp_right .inl⟩
      · exact .inr ⟨fault, by rw [ha, hf]; rfl, hfam⟩
    · exact .inr ⟨fault, by rw [hf]; rfl, hfam⟩

end Expr

/-- Where the node is, and what evaluation finds wrong with it. -/
def Node.refused? (node : Node) : Option (List Side × Fault) :=
  (node.tree.malformed? .notEvaluable).map (Prod.mk node.path)

namespace Expr

theorem findSome?_map_under (side : Side) (nodes : List Node) :
    (nodes.map (.under side)).findSome? Node.refused? =
      (nodes.findSome? Node.refused?).map (Prod.map (side :: ·) id) := by
  have hu : Node.refused? ∘ Node.under side = Option.map (Prod.map (side :: ·) id) ∘ Node.refused? := by
    funext node
    simp only [Function.comp_apply, Node.refused?, Option.map_map]
    rfl
  rw [List.findSome?_map, List.map_findSome?, hu]

theorem findSome?_binary (op : Operator) (l r : Expr) :
    (binary op.symbol l r).nodes.findSome? Node.refused? =
      ((l.nodes.findSome? Node.refused?).map (Prod.map (Side.left :: ·) id)).or
        ((r.nodes.findSome? Node.refused?).map (Prod.map (Side.right :: ·) id)) := by
  rw [nodes, List.findSome?_cons, List.findSome?_append, findSome?_map_under, findSome?_map_under]
  simp [Node.refused?, malformed?]

theorem WellFormed.findSome?_nodes {e : Expr} (hw : e.WellFormed) : e.nodes.findSome? Node.refused? = none := by
  induction hw with
  | constant c => rfl
  | binary op _ _ ihl ihr => rw [findSome?_binary, ihl, ihr]; rfl

theorem family_refused? {nodes : List Node} {path : List Side} {fault : Fault}
    (h : nodes.findSome? Node.refused? = some (path, fault)) : fault.family = .compilation := by
  obtain ⟨node, -, hn⟩ := List.exists_of_findSome?_eq_some h
  obtain ⟨_, hm, hp⟩ := Option.map_eq_some_iff.1 hn
  cases hp
  exact family_malformed? (fun _ => rfl) hm

/-- What evaluation does about a malformed node at the end of a path. It comes to the node when the operands
pending there have values; otherwise the first of them that fails is what fails. -/
inductive Stops (e : Expr) (path : List Side) (fault : Fault) : Prop
  | reached {values : List Value} (h : (e.pending path).mapM eval = .ok values) (he : e.eval = .error fault)
  | before {other : Fault} (h : (e.pending path).mapM eval = .error other)
    (hf : other.family = .mismatch ∨ other.family = .division ∨ other.family = .conversion)
    (he : e.eval = .error other)

theorem Stops.left {op : Operator} {l r : Expr} {path : List Side} {fault : Fault} (h : l.Stops path fault) :
    (binary op.symbol l r).Stops (.left :: path) fault := by
  have he {f : Fault} (hl : l.eval = .error f) : (binary op.symbol l r).eval = .error f := by
    rw [eval_binary, hl]
    rfl
  cases h with
  | reached h hl => exact .reached h (he hl)
  | before h hf hl => exact .before h hf (he hl)

theorem Stops.right {op : Operator} {l r : Expr} {a : Value} {path : List Side} {fault : Fault} (hl : l.eval = .ok a)
    (h : r.Stops path fault) : (binary op.symbol l r).Stops (.right :: path) fault := by
  have he {f : Fault} (hr : r.eval = .error f) : (binary op.symbol l r).eval = .error f := by
    rw [eval_binary, hl, hr]
    rfl
  cases h with
  | reached h hr => exact .reached (by rw [pending, List.mapM_cons, hl, h]; rfl) (he hr)
  | before h hf hr => exact .before (by rw [pending, List.mapM_cons, hl, h]; rfl) hf (he hr)

theorem Stops.of_left {op : Operator} {l r : Expr} {other : Fault} (hl : l.eval = .error other)
    (hf : other.family = .mismatch ∨ other.family = .division ∨ other.family = .conversion) (path : List Side)
    (fault : Fault) : (binary op.symbol l r).Stops (.right :: path) fault :=
  .before (by rw [pending, List.mapM_cons, hl]; rfl) hf (by rw [eval_binary, hl]; rfl)

/-- Evaluation of a malformed tree stops at its first malformed node, if not before. -/
theorem stops_of_not_wellFormed {e : Expr} (hw : ¬e.WellFormed) (hk : Keyed e.constants) :
    ∃ path fault, e.nodes.findSome? Node.refused? = some (path, fault) ∧ e.Stops path fault := by
  induction e with
  | constant c => exact absurd (.constant c) hw
  | native x => exact ⟨[], _, rfl, .reached rfl rfl⟩
  | binary symbol l r ihl ihr =>
    cases ho : Operator.ofSymbol? symbol with
    | none =>
      refine ⟨[], .unknownOperator symbol, ?_, .reached rfl ?_⟩
      · simp [nodes, Node.refused?, malformed?, ho]
      · rw [eval, ho]
    | some op =>
      obtain rfl := Operator.symbol_of_ofSymbol? ho
      obtain ⟨hkl, hkr⟩ := keyed_append.1 hk
      rw [findSome?_binary]
      by_cases hwl : l.WellFormed
      · obtain ⟨path, fault, hr, hs⟩ := ihr (fun hwr => hw (.binary op hwl hwr)) hkr
        refine ⟨.right :: path, fault, by rw [hwl.findSome?_nodes, hr]; rfl, ?_⟩
        obtain ⟨a, ha, -⟩ | ⟨other, hl, hf⟩ := hwl.eval_cases hkl
        · exact hs.right ha
        · exact .of_left hl hf path fault
      · obtain ⟨path, fault, hl, hs⟩ := ihl hwl hkl
        exact ⟨.left :: path, fault, by rw [hl]; rfl, hs.left⟩

/-! ### Both together -/

/-- Exactly the well-formed trees with no more than 65536 keys compile, and compilation refuses any other for
its first offence in preorder. Evaluation of a malformed tree stops at the first malformed node, if not
before. -/
theorem refused_for_first_offence {e : Expr} (hs : ∀ c ∈ e.constants, ∀ n ∈ c.value.integers, Native.IsShort n) :
    ((∃ chunk, e.compile = .ok chunk) ↔ e.WellFormed ∧ e.keys.eraseDups.length ≤ 65536) ∧
      (∀ fault, e.compile = .error fault ↔ firstOffence? [] e.nodes = some fault) ∧
      (∀ fault, e.compile = .error fault → fault.family = .compilation) ∧
      (¬e.WellFormed → ∃ path fault, e.nodes.findSome? Node.refused? = some (path, fault) ∧
        fault.family = .compilation ∧ e.Stops path fault) := by
  have hk : Keyed e.constants := fun c hc => Constant.hasKey_of_isShort (hs c hc)
  refine ⟨exists_compile_iff hk, fun _ => compile_eq_error_iff hk, fun fault h => ?_, fun hw => ?_⟩
  · exact family_firstOffence? ((compile_eq_error_iff hk).1 h)
  · obtain ⟨path, fault, hf, hstop⟩ := stops_of_not_wellFormed hw hk
    exact ⟨path, fault, hf, family_refused? hf, hstop⟩

/-- The right operand is no node, but the left one fails before it is looked at. -/
theorem refused_for_first_offence_of_texts :
    ∃ path fault,
      (binary "+" (binary "-" (constant ⟨.string, .string "a"⟩) (constant ⟨.string, .string "b"⟩))
          (native (.list []))).nodes.findSome? Node.refused? = some (path, fault) ∧
        fault.family = .compilation ∧
        (binary "+" (binary "-" (constant ⟨.string, .string "a"⟩) (constant ⟨.string, .string "b"⟩))
          (native (.list []))).Stops path fault := by
  refine (refused_for_first_offence ?_).2.2.2 fun hw => ?_
  · simp [constants, Native.integers]
  · obtain ⟨-, hr⟩ := WellFormed.of_binary (show (binary Operator.add.symbol _ _).WellFormed from hw)
    cases hr

end Expr
end ScalarScript
