import ScalarScript.Proofs.Folding

/-! Optimized compiled code is the compiled folded tree, byte for byte and entry for entry. A folding step
on encoded tokens folds the tokens, over a table that grows by at most one entry for each operator; the
trimmed table then holds the constants of the folded tree in order of first use. -/
namespace ScalarScript

open Chunk Instruction

/-! ### Tables that tokens are encoded over -/

/-- A table for the tokens: within an operand's reach, and with keys, as every search needs them. -/
structure Tabled (table : List Constant) (tokens : List Token) : Prop where
  keyed : Keyed table
  size : table.length ≤ maxIndex + 1
  covers : operands tokens ⊆ table

def Token.weight : Token → ℕ
  | operator _ => 1
  | _ => 0

def weight (tokens : List Token) : ℕ := (tokens.map Token.weight).sum

theorem operands_cons (t : Token) (tokens : List Token) : operands (t :: tokens) = operands [t] ++ operands tokens :=
  List.filterMap_append (l := [t])

theorem Token.encode_operand {table : List Constant} {c : Constant} (hm : c ∈ table)
    (hl : table.length ≤ maxIndex + 1) : table.idxOf c < 65536 ∧ table[table.idxOf c]? = some c :=
  ⟨(List.idxOf_lt_length_of_mem hm).trans_le hl, List.getElem?_idxOf hm⟩

theorem Token.constant?_encode {table : List Constant} (hl : table.length ≤ maxIndex + 1) {t : Token}
    (ht : operands [t] ⊆ table) : (t.encode table).constant? table = .ok t.operand? := by
  cases t with
  | operand c =>
    obtain ⟨hi, hc⟩ := encode_operand (ht (List.mem_singleton_self c)) hl
    exact constant?_push hi hc
  | operator op => exact constant?_plain (by simp) table
  | halt => exact constant?_plain (by simp) table

theorem Tabled.cons {table : List Constant} {done : List Token} (h : Tabled table done) {t : Token}
    (ht : operands [t] ⊆ table) : Tabled table (t :: done) where
  keyed := h.keyed
  size := h.size
  covers := by
    rw [operands_cons]
    exact List.append_subset.2 ⟨ht, h.covers⟩

theorem Tabled.of_cons {table : List Constant} {done : List Token} {t : Token} (h : Tabled table (t :: done)) :
    operands [t] ⊆ table ∧ Tabled table done := by
  obtain ⟨hk, hl, hc⟩ := h
  rw [operands_cons] at hc
  exact ⟨(List.append_subset.1 hc).1, hk, hl, (List.append_subset.1 hc).2⟩

/-! ### Folding steps -/

/-- What folding over a table may come to: the target over a longer table, or a failure for want of room. -/
inductive FoldResult (table : List Constant) (code : List UInt8) (room : ℕ) (target : List Token) :
    EStateM.Result Fault Chunk (List Instruction) → Prop
  | ok {longer : List Constant} (hp : table <+: longer) (hr : longer.length ≤ table.length + room)
    (ht : Tabled longer target) :
    FoldResult table code room target (.ok (target.map (Token.encode longer)) ⟨code, longer⟩)
  | error (hr : maxIndex + 1 < table.length + room) (fault : Fault) (after : Chunk) :
    FoldResult table code room target (.error fault after)

theorem FoldResult.unchanged {table : List Constant} {tokens : List Token} (h : Tabled table tokens)
    (code : List UInt8) (room : ℕ) :
    FoldResult table code room tokens (.ok (tokens.map (Token.encode table)) ⟨code, table⟩) :=
  .ok List.prefix_rfl (Nat.le_add_right _ _) h

theorem FoldResult.of_longer {table longer : List Constant} {code : List UInt8} {room more : ℕ} {target : List Token}
    {result : EStateM.Result Fault Chunk (List Instruction)} (h : FoldResult longer code more target result)
    (hp : table <+: longer) (hr : longer.length ≤ table.length + room) :
    FoldResult table code (room + more) target result := by
  cases h with
  | ok hp' hr' ht => exact .ok (hp.trans hp') (by omega) ht
  | error hr' fault after => exact .error (by omega) fault after

/-- The window of a folding step on two operands and an operator. -/
theorem foldResult_operands {table : List Constant} {a b : Constant} {before : List Token}
    (h : Tabled table (.operand b :: .operand a :: before)) (op : Operator) (code : List UInt8) :
    FoldResult table code 1 (foldToken (.operand b :: .operand a :: before) (.operator op))
      (foldStep ((Token.operand b :: Token.operand a :: before).map (Token.encode table))
        (Token.encode table (.operator op)) ⟨code, table⟩) := by
  obtain ⟨hb, hab⟩ := h.of_cons
  obtain ⟨ha, hbefore⟩ := hab.of_cons
  rw [foldToken_operands, List.map_cons, List.map_cons, foldStep_window (Opcode.ofByte?_toByte (.binary op))]
  simp only [Token.constant?_encode h.size ha, Token.constant?_encode h.size hb, Token.operand?]
  cases hc : op.combine a b with
  | error fault =>
    have hka := h.keyed a (ha (List.mem_singleton_self a))
    have hkb := h.keyed b (hb (List.mem_singleton_self b))
    simp only [Operator.inLanguage_combine hka hkb hc, if_true]
    exact .unchanged (h.cons (t := .operator op) (List.nil_subset table)) code 1
  | ok c =>
    obtain ⟨hkc, -⟩ := Operator.combine_ok hc
    have hadd : addOperand c ⟨code, table⟩ =
        if maxIndex < table.idxOf c then .error (.tooManyConstants (table.idxOf c)) ⟨code, extend table c⟩
        else .ok (table.idxOf c) ⟨code, extend table c⟩ := addOperand_of_keyed hkc h.keyed
    simp only [hadd]
    by_cases hi : maxIndex < table.idxOf c
    · simp only [if_pos hi]
      exact .error (Nat.lt_succ_of_le (Nat.le_trans hi List.idxOf_le_length)) _ _
    · simp only [if_neg hi]
      have hlonger : Tabled (extend table c) (.operand c :: before) := by
        refine Tabled.cons ⟨keyed_extend h.keyed hkc, length_extend_le_of_idxOf h.size (Nat.not_lt.1 hi), ?_⟩ ?_
        · exact fun d hd => mem_extend.2 (.inl (hbefore.covers hd))
        · exact List.cons_subset.2 ⟨mem_extend.2 (.inr rfl), List.nil_subset _⟩
      have hencode : push (table.idxOf c) :: before.map (Token.encode table) =
          (Token.operand c :: before).map (Token.encode (extend table c)) := by
        rw [List.map_cons, Token.encode, idxOf_extend, Token.map_encode_of_isPrefix prefix_extend hbefore.covers]
      rw [hencode]
      exact .ok prefix_extend length_extend_le hlonger

/-- A token that folding leaves where it is. -/
theorem FoldResult.stay {table : List Constant} {done : List Token} (h : Tabled table done) {t : Token}
    (ht : operands [t] ⊆ table) (code : List UInt8) (hf : foldToken done t = t :: done)
    (hs : foldStep (done.map (Token.encode table)) (t.encode table) ⟨code, table⟩ =
      .ok ((t :: done).map (Token.encode table)) ⟨code, table⟩) :
    FoldResult table code t.weight (foldToken done t)
      (foldStep (done.map (Token.encode table)) (t.encode table) ⟨code, table⟩) := by
  rw [hf, hs]
  exact .unchanged (h.cons ht) code t.weight

theorem foldResult_foldStep {table : List Constant} {done : List Token} (h : Tabled table done) {t : Token}
    (ht : operands [t] ⊆ table) (code : List UInt8) :
    FoldResult table code t.weight (foldToken done t)
      (foldStep (done.map (Token.encode table)) (t.encode table) ⟨code, table⟩) := by
  cases t with
  | operand c => exact .stay h ht code (by cases done <;> rfl) (foldStep_of_no_window (by simp [Token.encode, push]) _)
  | halt => exact .stay h ht code (by cases done <;> rfl) (foldStep_of_no_window (by simp [Token.encode, plain]) _)
  | operator op =>
    cases done with
    | nil => exact .stay h ht code rfl (foldStep_of_no_window (by simp) _)
    | cons second rest =>
      cases rest with
      | nil => exact .stay h ht code (by cases second <;> rfl) (foldStep_of_no_window (by simp) _)
      | cons first before =>
        by_cases hw : ∃ a b, first = .operand a ∧ second = .operand b
        · obtain ⟨a, b, rfl, rfl⟩ := hw
          exact foldResult_operands h op code
        · obtain ⟨hsecond, hrest⟩ := h.of_cons
          obtain ⟨hfirst, -⟩ := hrest.of_cons
          apply FoldResult.stay h ht code
          · cases first <;> cases second <;> first | rfl | exact absurd ⟨_, _, rfl, rfl⟩ hw
          · rw [List.map_cons, List.map_cons, foldStep_window (Opcode.ofByte?_toByte (.binary op)),
              Token.constant?_encode h.size hfirst, Token.constant?_encode h.size hsecond]
            cases first <;> cases second <;> first | rfl | exact absurd ⟨_, _, rfl, rfl⟩ hw

/-- Folding the instructions of tokens folds the tokens. -/
theorem foldResult_foldlM {table : List Constant} {done tokens : List Token} (h : Tabled table done)
    (ht : operands tokens ⊆ table) (code : List UInt8) :
    FoldResult table code (weight tokens) (tokens.foldl foldToken done)
      ((tokens.map (Token.encode table)).foldlM foldStep (done.map (Token.encode table)) ⟨code, table⟩) := by
  induction tokens generalizing table done with
  | nil => exact .unchanged h code 0
  | cons t tokens ih =>
    rw [operands_cons] at ht
    obtain ⟨ht, hrest⟩ := List.append_subset.1 ht
    have hw : weight (t :: tokens) = t.weight + weight tokens := by simp [weight]
    rw [List.map_cons, List.foldlM_cons, List.foldl_cons, hw]
    have hstep := foldResult_foldStep h ht code
    simp only [bind, EStateM.bind]
    generalize foldStep (done.map (Token.encode table)) (t.encode table) ⟨code, table⟩ = result at hstep ⊢
    cases hstep with
    | error hr fault after => exact .error (by omega) fault after
    | @ok longer hp hr hl =>
      have hrun := ih hl (List.Subset.trans hrest hp.subset)
      rw [Token.map_encode_of_isPrefix hp hrest] at hrun
      exact hrun.of_longer hp hr

/-! ### Trimming -/

theorem forall₂_index?_encode {table : List Constant} (hl : table.length ≤ maxIndex + 1) {tokens : List Token}
    (ht : operands tokens ⊆ table) :
    List.Forall₂ (fun i index => i.index? = some index) ((tokens.map (Token.encode table)).filter (·.is .pushConst))
      ((operands tokens).map (table.idxOf ·)) := by
  induction tokens with
  | nil => exact .nil
  | cons t tokens ih =>
    rw [operands_cons] at ht
    obtain ⟨ht, hrest⟩ := List.append_subset.1 ht
    cases t with
    | operand c =>
      obtain ⟨hi, -⟩ := Token.encode_operand (ht (List.mem_singleton_self c)) hl
      exact .cons (index?_push hi) (ih hrest)
    | operator op =>
      rw [List.map_cons, List.filter_cons_of_neg (by simp [Token.encode, plain_is])]
      exact ih hrest
    | halt =>
      rw [List.map_cons, List.filter_cons_of_neg (by simp [Token.encode, plain_is])]
      exact ih hrest

/-- Trimming encoded tokens encodes them over the table of just their constants. -/
theorem withoutUnused_encode {table : List Constant} {tokens : List Token} (h : Tabled table tokens) :
    withoutUnused ⟨assemble (tokens.map (Token.encode table)), table⟩ =
      .ok ⟨assemble (tokens.map (Token.encode (operands tokens).eraseDups)), (operands tokens).eraseDups⟩ := by
  have hinj (c : Constant) (hc : c ∈ operands tokens) (d : Constant) (hd : d ∈ operands tokens)
      (he : table.idxOf d = table.idxOf c) : d = c := (List.idxOf_inj (h.covers hd)).1 he
  have hd : decode (assemble (tokens.map (Token.encode table))) = tokens.map (Token.encode table) :=
    decode_assemble (Stream.of_whole Token.whole_of_mem_map_encode)
  refine withoutUnused_eq_ok_iff.2
    ⟨(operands tokens).eraseDups.map (table.idxOf ·), ?_, (operands tokens).eraseDups, ?_, ?_⟩
  · rw [hd]
    exact usedIndices_eq_ok_iff.2 ⟨_, forall₂_index?_encode h.size h.covers, eraseDups_map hinj⟩
  · rw [List.forall₂_map_left_iff, List.forall₂_same]
    intro c hc
    exact List.getElem?_idxOf (h.covers (List.mem_eraseDups.1 hc))
  · rw [hd, List.map_map]
    congr 2
    refine List.map_congr_left fun t ht => ?_
    cases t with
    | operator op =>
      simp only [Function.comp_apply, Token.encode, renumber, plain_is]
      rfl
    | halt => rfl
    | operand c =>
      have hc := mem_operands.2 ht
      obtain ⟨hi, -⟩ := Token.encode_operand (h.covers hc) h.size
      simp only [Function.comp_apply, Token.encode, renumber, is_push, index?_push hi]
      rw [idxOf_map fun b hb => hinj c hc b (List.mem_eraseDups.1 hb)]

theorem Token.encode_is {op : Opcode} (hop : op = .nop ∨ op = .pop) (table : List Constant) (t : Token) :
    (t.encode table).is op = false := by
  cases t with
  | operand c => obtain rfl | rfl := hop <;> rfl
  | operator op' =>
    rw [encode, plain_is]
    obtain rfl | rfl := hop <;> simp
  | halt =>
    rw [encode, plain_is]
    obtain rfl | rfl := hop <;> simp

/-- There is nothing idle in the code of a tree. -/
theorem dropIdle_encode (table : List Constant) (tokens : List Token) :
    dropIdle (tokens.map (Token.encode table)) = tokens.map (Token.encode table) := by
  have hnop := Token.encode_is (.inl rfl) table
  have hpop := Token.encode_is (.inr rfl) table
  induction tokens with
  | nil => rfl
  | cons t tokens ih =>
    cases tokens with
    | nil => simp [dropIdle, hnop]
    | cons next tokens =>
      rw [List.map_cons, List.map_cons, dropIdle, hnop, hpop, Bool.and_false]
      simpa using ih

/-! ### Optimization of compiled trees -/

theorem weight_program {e : Expr} (h : e.WellFormed) : weight e.program = e.binaries := by
  have hpost : weight e.postorder = e.binaries := by
    induction h with
    | constant c => rfl
    | binary op _ _ ihl ihr =>
      rw [Expr.postorder_binary, Expr.binaries, ← ihl, ← ihr]
      simp [weight, Token.weight, Nat.add_assoc]
  rw [← hpost, Expr.program]
  simp [weight, Token.weight]

theorem Expr.tabled_program {e : Expr} (hk : Keyed e.constants) (hl : e.table.length ≤ maxIndex + 1) :
    Tabled e.table e.program where
  keyed := keyed_eraseDups.2 hk
  size := hl
  covers := by
    rw [Expr.operands_program]
    exact fun c hc => List.mem_eraseDups.2 hc

/-- Optimization makes the layout of a tree that of the folded tree, unless folding runs out of room. -/
theorem optimize_layout {e : Expr} (hw : e.WellFormed) (hk : Keyed e.constants) (hl : e.table.length ≤ maxIndex + 1) :
    (e.layout.optimize = .ok e.fold.layout ∧ Keyed e.fold.constants ∧ e.fold.table.length ≤ maxIndex + 1) ∨
      maxIndex + 1 < e.table.length + e.binaries ∧ ∀ optimized, e.layout.optimize ≠ .ok optimized := by
  obtain ⟨hkeyed, hsize, hcovers⟩ := Expr.tabled_program hk hl
  have hnil : Tabled e.table [] := ⟨hkeyed, hsize, List.nil_subset e.table⟩
  have hfold := foldResult_foldlM hnil hcovers e.layout.code
  have htarget : (e.program.foldl foldToken []).reverse = e.fold.program := by
    rw [Expr.program, List.foldl_append, foldl_foldToken hw]
    simp [foldToken, Expr.program]
  rw [weight_program hw, ← decode_layout] at hfold
  generalize hres : (decode e.layout.code).foldlM foldStep _ _ = result at hfold
  cases hfold with
  | error hr fault after =>
    refine .inr ⟨hr, fun optimized ho => ?_⟩
    obtain ⟨done, folded, trimmed, hdone, -⟩ := optimize_eq_ok_iff.1 ho
    cases hres.symm.trans hdone
  | @ok longer hp hr ht =>
    have hlonger : Tabled longer e.fold.program := by
      refine ⟨ht.keyed, ht.size, ?_⟩
      rw [← htarget, operands, List.filterMap_reverse]
      exact fun c hc => ht.covers (List.mem_reverse.1 hc)
    have hcover : e.fold.constants ⊆ longer := Expr.operands_program e.fold ▸ hlonger.covers
    refine .inl ⟨optimize_eq_ok_iff.2 ⟨_, _, e.fold.layout, hres, ?_, ?_⟩, fun c hc => ht.keyed c (hcover hc), ?_⟩
    · rw [← List.map_reverse, htarget, withoutUnused_encode hlonger, Expr.operands_program]
      rfl
    · rw [withoutIdle, decode_layout, dropIdle_encode]
      rfl
    · have hsub : e.fold.table ⊆ longer := fun c hc => hcover (List.mem_eraseDups.1 hc)
      exact (List.subperm_of_subset (nodup_eraseDups _) hsub).length_le.trans ht.size

/-- A run of compiled and optimized code comes to what evaluation comes to. -/
theorem run_of_optimize {e : Expr} {chunk optimized : Chunk} (hc : e.compile = .ok chunk)
    (ho : chunk.optimize = .ok optimized) : optimized.run = e.eval := by
  obtain ⟨hw, hk, hl, rfl⟩ := Expr.compile_eq_ok_iff.1 hc
  obtain ⟨hopt, -, hlf⟩ | ⟨-, hne⟩ := optimize_layout hw hk hl
  · cases hopt.symm.trans ho
    rw [Expr.run_layout hw.fold hlf, Expr.eval_fold hw]
  · exact absurd ho (hne optimized)

/-- Optimizing compiled code is compiling the folded tree; and a tree with a value is left with the push of
one constant of that value. -/
theorem optimize_compile {e : Expr} {chunk optimized : Chunk} (hc : e.compile = .ok chunk)
    (ho : chunk.optimize = .ok optimized) :
    e.fold.compile = .ok optimized ∧
      ∀ v, e.eval = .ok v → ∃ c, optimized = ⟨[0x05, 0, 0, 0xff], [c]⟩ ∧ c.toValue = .ok v := by
  obtain ⟨hw, hk, hl, rfl⟩ := Expr.compile_eq_ok_iff.1 hc
  obtain ⟨hopt, hkf, hlf⟩ | ⟨-, hne⟩ := optimize_layout hw hk hl
  · cases hopt.symm.trans ho
    refine ⟨Expr.compile_eq_ok_iff.2 ⟨hw.fold, hkf, hlf, rfl⟩, fun v hv => ?_⟩
    obtain ⟨c, hf, hcv⟩ := Expr.fold_of_eval hw hv
    refine ⟨c, ?_, hcv⟩
    rw [hf, Expr.layout, Expr.table, Expr.constants, List.eraseDups_cons]
    simp [Expr.program, Expr.postorder, Token.encode, assemble, push, plain, bytes, wordBytes, Opcode.toByte]
  · exact absurd ho (hne optimized)

/-- The same text twice: both halves fold to one entry, which is gone once they are joined. -/
theorem optimize_compile_of_texts :
    (Expr.fold (.binary "+"
      (.binary "+" (.constant ⟨.string, .string "a"⟩) (.constant ⟨.string, .string "b"⟩))
      (.binary "+" (.constant ⟨.string, .string "a"⟩) (.constant ⟨.string, .string "b"⟩)))).compile =
      .ok ⟨[0x05, 0, 0, 0xff], [⟨.string, .string "abab"⟩]⟩ ∧
    ∃ c : Constant, (⟨[0x05, 0, 0, 0xff], [⟨.string, .string "abab"⟩]⟩ : Chunk) = ⟨[0x05, 0, 0, 0xff], [c]⟩ ∧
      c.toValue = .ok (.ofString "abab") := by
  have hc : (Expr.binary "+"
      (.binary "+" (.constant ⟨.string, .string "a"⟩) (.constant ⟨.string, .string "b"⟩))
      (.binary "+" (.constant ⟨.string, .string "a"⟩) (.constant ⟨.string, .string "b"⟩))).compile =
      .ok ⟨[5, 0, 0, 5, 0, 1, 0x60, 5, 0, 0, 5, 0, 1, 0x60, 0x60, 0xff],
        [⟨.string, .string "a"⟩, ⟨.string, .string "b"⟩]⟩ := by rfl
  have ho : Chunk.optimize ⟨[5, 0, 0, 5, 0, 1, 0x60, 5, 0, 0, 5, 0, 1, 0x60, 0x60, 0xff],
      [⟨.string, .string "a"⟩, ⟨.string, .string "b"⟩]⟩ =
      .ok ⟨[0x05, 0, 0, 0xff], [⟨.string, .string "abab"⟩]⟩ := by cbv
  obtain ⟨hfold, hvalue⟩ := optimize_compile hc ho
  exact ⟨hfold, hvalue _ (by rfl)⟩

end ScalarScript
