import ScalarScript.Proofs.Bytecode.Building
import ScalarScript.Proofs.Bytecode.References
import ScalarScript.Proofs.Bytecode.Session

/-! Folding that runs out of room. Results may have gone into the table by then, but the code is as it was, and
what it refers to is where it was: the chunk runs as if nothing had been tried. -/
namespace ScalarScript

open Chunk Instruction

namespace Chunk

/-- The code is the same, and the table has at most more entries at its end. -/
structure Extends (chunk after : Chunk) : Prop where
  code : after.code = chunk.code
  constants : chunk.constants <+: after.constants

variable {chunk middle after : Chunk}

theorem Extends.refl (chunk : Chunk) : chunk.Extends chunk := ⟨rfl, List.prefix_rfl⟩

theorem Extends.trans (h : chunk.Extends middle) (h' : middle.Extends after) : chunk.Extends after :=
  ⟨h'.code.trans h.code, h.constants.trans h'.constants⟩

/-- The action only extends the chunk, whether it succeeds or fails. -/
def Extending {α : Type} (action : Build α) : Prop := ∀ chunk : Chunk, chunk.Extends (action.final chunk)

namespace Extending

variable {α β : Type}

theorem bind {action : Build α} {next : α → Build β} (h : Extending action) (hn : ∀ a, Extending (next a)) :
    Extending (action >>= next) := by
  intro chunk
  have hfirst := h chunk
  simp only [Stateful.final, Bind.bind, EStateM.bind] at hfirst ⊢
  cases ha : action chunk with
  | error fault after =>
    rw [ha] at hfirst
    exact hfirst
  | ok a after =>
    rw [ha] at hfirst
    exact hfirst.trans (hn a after)

theorem pure (a : α) : Extending (Pure.pure a : Build α) := Extends.refl

theorem throw (fault : Fault) : Extending (MonadExcept.throw fault : Build α) := Extends.refl

theorem get : Extending (MonadState.get : Build Chunk) := Extends.refl

theorem lift (r : Except Fault α) : Extending (Stateful.lift r : Build α) := by
  cases r with
  | ok a => exact Extends.refl
  | error fault => exact Extends.refl

end Extending

/-! ### Folding steps -/

theorem extending_addConstant (c : Constant) : Extending (addConstant c) := by
  intro chunk
  rw [Stateful.final, addConstant_eq]
  cases c.key with
  | error fault => exact .refl chunk
  | ok key =>
    cases hf : findKey key 0 chunk.constants with
    | error fault => simpa only [hf] using Extends.refl chunk
    | ok found =>
      cases found with
      | some index => simpa only [hf] using Extends.refl chunk
      | none =>
        have hadded : chunk.Extends { chunk with constants := chunk.constants ++ [c] } := ⟨rfl, List.prefix_append _ _⟩
        simpa only [hf] using hadded

theorem extending_addOperand (c : Constant) : Extending (addOperand c) := by
  refine (extending_addConstant c).bind fun index => ?_
  split
  · exact .throw _
  · exact .pure index

theorem extending_foldStep (done : List Instruction) (i : Instruction) : Extending (foldStep done i) := by
  unfold foldStep
  split
  · refine Extending.get.bind fun chunk => (Extending.lift _).bind fun a => (Extending.lift _).bind fun b => ?_
    split
    · split
      · exact (extending_addOperand _).bind fun index => .pure _
      · split
        · exact .pure _
        · exact .throw _
    · exact .pure _
  · exact .pure _

/-- Folding does not touch the code or any entry of the table, however far it gets. -/
theorem extending_foldlM (instructions done : List Instruction) : Extending (instructions.foldlM foldStep done) := by
  induction instructions generalizing done with
  | nil => exact .pure done
  | cons i rest ih =>
    rw [List.foldlM_cons]
    exact (extending_foldStep done i).bind ih

/-! ### Refused folding -/

/-- What refers to the table does not notice that it has grown. -/
theorem Extends.runsLike (h : chunk.Extends after) (hr : ∀ i ∈ decode chunk.code, i.Refers chunk.constants) :
    after.RunsLike chunk := by
  refine runsLike_of_execute fun stack => ?_
  have hlonger := executeAll_of_isPrefix h.constants (stream_decode chunk.code) (fun _ : True => hr) stack
  rw [Chunk.execute, Chunk.execute, h.code, hlonger.resolve_right fun hn => hn.1 trivial]

/-- Over a table that can be written, and code whose pushes all refer to it, folding fails for want of room only.
It leaves the code, extends the table at its end, and changes no run of the chunk. -/
theorem foldConstants_overflow {fault : Fault}
    (hs : ∀ c ∈ chunk.constants, ∀ n ∈ c.value.integers, Native.IsShort n)
    (hr : ∀ i ∈ decode chunk.code, i.Refers chunk.constants) (h : foldConstants chunk = .error fault after) :
    (∃ index, fault = .tooManyConstants index) ∧ after.code = chunk.code ∧ chunk.constants <+: after.constants ∧
      after.RunsLike chunk := by
  have hk : Keyed chunk.constants := fun c hc => Constant.hasKey_of_isShort (hs c hc)
  obtain ⟨-, i, hi, hn⟩ | ⟨index, rfl, -⟩ := foldConstants_eq_error hk h
  · exact absurd (hr i hi) hn
  · have hextends : chunk.Extends after := by
      have hsteps := extending_foldlM (decode chunk.code) [] chunk
      rw [Stateful.final] at hsteps
      rw [foldConstants_eq] at h
      split at h
      · rename_i hf
        cases h
        rwa [hf] at hsteps
      · -- The code has been assigned by then, but trimming fails for a reference only.
        split at h
        · rename_i hu
          cases h
          cases (withoutUnused_eq_error hu).1
        · cases h
    exact ⟨⟨index, rfl⟩, hextends.code, hextends.constants, hextends.runsLike hr⟩

/-- There is no room for a new result after a full table. -/
theorem foldConstants_of_full {table : List Constant} (hk : Keyed table) (hl : maxIndex < table.length)
    {op : Operator} {left right : ℕ} (hleft : left < 65536) (hright : right < 65536) {a b c : Constant}
    (ha : table[left]? = some a) (hb : table[right]? = some b) (hc : op.combine a b = .ok c) (hn : c ∉ table)
    {code rest : List UInt8}
    (hcode : code = (push left).bytes ++ ((push right).bytes ++ ((plain (.binary op)).bytes ++ rest))) :
    foldConstants ⟨code, table⟩ = .error (.tooManyConstants table.length) ⟨code, table ++ [c]⟩ := by
  have hadd : addOperand c ⟨code, table⟩ = .error (.tooManyConstants table.length) ⟨code, table ++ [c]⟩ := by
    rw [addOperand_of_keyed (Operator.combine_ok hc).1 hk]
    simp only [List.idxOf_eq_length hn, if_pos hl, extend, if_neg hn]
  have hstep : foldStep [push right, push left] (plain (.binary op)) ⟨code, table⟩ =
      .error (.tooManyConstants table.length) ⟨code, table ++ [c]⟩ := by
    rw [foldStep_window (Opcode.ofByte?_toByte (.binary op))]
    simp only [constant?_push hleft ha, constant?_push hright hb, hc, hadd]
  have hfirst : foldStep [] (push left) ⟨code, table⟩ = .ok [push left] ⟨code, table⟩ := rfl
  have hsecond : foldStep [push left] (push right) ⟨code, table⟩ = .ok [push right, push left] ⟨code, table⟩ := rfl
  have hd : decode code = push left :: push right :: plain (.binary op) :: decode rest := by
    rw [hcode, decode_bytes_append (whole_push left), decode_bytes_append (whole_push right),
      decode_bytes_append (whole_plain (by simp))]
  rw [foldConstants_eq, hd]
  simp only [List.foldlM_cons, bind, EStateM.bind, hfirst, hsecond, hstep]

/-- All slots are taken, by the same text, and the text twice finds no place after them. -/
theorem foldConstants_overflow_of_texts :
    ∃ after, foldConstants ⟨[5, 0, 0, 5, 0, 0, 0x60], List.replicate 65536 ⟨.string, .string "a"⟩⟩ =
        .error (.tooManyConstants 65536) after ∧
      (∃ index, Fault.tooManyConstants 65536 = .tooManyConstants index) ∧ after.code = [5, 0, 0, 5, 0, 0, 0x60] ∧
      List.replicate 65536 ⟨.string, .string "a"⟩ <+: after.constants ∧
      after.RunsLike ⟨[5, 0, 0, 5, 0, 0, 0x60], List.replicate 65536 ⟨.string, .string "a"⟩⟩ := by
  have hs : ∀ c ∈ List.replicate 65536 (⟨.string, .string "a"⟩ : Constant), ∀ n ∈ c.value.integers,
      Native.IsShort n := by
    intro c hc n hn
    rw [List.eq_of_mem_replicate hc] at hn
    cases hn
  -- What the table holds is known by lemmas, so that nothing has to go through all of it.
  generalize htable : List.replicate 65536 (⟨.string, .string "a"⟩ : Constant) = table at hs ⊢
  have hlength : table.length = 65536 := by rw [← htable, List.length_replicate]
  have hentry : table[0]? = some ⟨.string, .string "a"⟩ := by
    rw [← htable, List.getElem?_replicate, if_pos (by decide)]
  have hnew : (⟨.string, .string "aa"⟩ : Constant) ∉ table := by
    rw [← htable]
    intro hm
    simpa using List.eq_of_mem_replicate hm
  have hr : ∀ i ∈ decode [5, 0, 0, 5, 0, 0, 0x60], i.Refers table := by
    have hd : decode [5, 0, 0, 5, 0, 0, 0x60] = [push 0, push 0, plain (.binary .add)] := rfl
    rw [hd]
    simp only [List.forall_mem_cons, List.not_mem_nil, false_imp_iff, implies_true, and_true]
    exact ⟨refers_push (by decide) hentry, refers_push (by decide) hentry, refers_of_isOperator rfl⟩
  have hfold : foldConstants ⟨[5, 0, 0, 5, 0, 0, 0x60], table⟩ =
      .error (.tooManyConstants 65536) ⟨[5, 0, 0, 5, 0, 0, 0x60], table ++ [⟨.string, .string "aa"⟩]⟩ := by
    have hk : Keyed table := fun c hc => Constant.hasKey_of_isShort (hs c hc)
    have hc : Operator.add.combine ⟨.string, .string "a"⟩ ⟨.string, .string "a"⟩ = .ok ⟨.string, .string "aa"⟩ := rfl
    rw [← hlength]
    exact foldConstants_of_full hk (by rw [hlength]; decide) (by decide) (by decide) hentry hentry hc hnew rfl
  exact ⟨_, hfold, foldConstants_overflow hs hr hfold⟩

end Chunk
end ScalarScript
