import ScalarScript.Bytecode.Chunk
import ScalarScript.Proofs.Literal
import ScalarScript.Proofs.Result
import Mathlib

/-! Tables of constants. Since a key tells the constant, a table is searched for the constant itself: one
that is there keeps its place and one that is new goes last. The table of a list of constants holds
each of them once, in order of first occurrence. -/
namespace ScalarScript

open Chunk

noncomputable instance : DecidableEq Constant := Classical.decEq Constant

/-- Every constant has a key. -/
def Keyed (table : List Constant) : Prop := ∀ c ∈ table, c.HasKey

theorem keyed_append {first second : List Constant} : Keyed (first ++ second) ↔ Keyed first ∧ Keyed second :=
  List.forall_mem_append

/-- The list with an entry, which goes last if it is new. -/
def extend {α : Type} [DecidableEq α] (table : List α) (a : α) : List α := if a ∈ table then table else table ++ [a]

section Extend

variable {α : Type} [DecidableEq α] {table : List α} {a b : α}

theorem prefix_extend : table <+: extend table a := by
  unfold extend
  split
  · exact List.prefix_rfl
  · exact List.prefix_append table [a]

theorem mem_extend : b ∈ extend table a ↔ b ∈ table ∨ b = a := by
  unfold extend
  split
  · exact ⟨.inl, fun h => h.elim id (· ▸ ‹a ∈ table›)⟩
  · simp

/-- An entry's place is where it was, or the end of the list that it was not in. -/
theorem idxOf_extend : (extend table a).idxOf a = table.idxOf a := by
  unfold extend
  split
  · rfl
  · rw [List.idxOf_append_of_notMem ‹a ∉ table›, List.idxOf_cons_self, List.idxOf_eq_length ‹a ∉ table›]
    rfl

theorem length_extend_le : (extend table a).length ≤ table.length + 1 := by
  unfold extend
  split <;> simp

theorem idxOf_lt_length_extend : table.idxOf a < (extend table a).length := by
  rw [← idxOf_extend]
  exact List.idxOf_lt_length_of_mem (mem_extend.2 (.inr rfl))

/-- Only a new entry of a full list gets an index that is too large. -/
theorem length_extend_le_of_idxOf (hl : table.length ≤ maxIndex + 1) (hi : table.idxOf a ≤ maxIndex) :
    (extend table a).length ≤ maxIndex + 1 := by
  unfold extend
  split
  · exact hl
  · rw [List.idxOf_eq_length ‹a ∉ table›] at hi
    simpa using hi

theorem eraseDups_concat (as : List α) (a : α) : (as ++ [a]).eraseDups = extend as.eraseDups a := by
  rw [List.eraseDups_append, extend]
  by_cases ha : a ∈ as
  · simp [List.removeAll, ha]
  · simp [List.removeAll, ha, List.eraseDups_cons]

theorem prefix_eraseDups (as bs : List α) : as.eraseDups <+: (as ++ bs).eraseDups := by
  rw [List.eraseDups_append]
  exact List.prefix_append _ _

end Extend

theorem idxOf_map {α β : Type} [DecidableEq α] [DecidableEq β] {f : α → β} {as : List α} {a : α}
    (h : ∀ b ∈ as, f b = f a → b = a) : (as.map f).idxOf (f a) = as.idxOf a := by
  induction as with
  | nil => rfl
  | cons b as ih =>
    obtain ⟨hb, has⟩ := List.forall_mem_cons.1 h
    by_cases hba : b = a
    · subst hba
      simp
    · rw [List.map_cons, List.idxOf_cons_ne _ fun he => hba (hb he), List.idxOf_cons_ne _ hba, ih has]

theorem nodup_eraseDups {α : Type} [BEq α] [LawfulBEq α] : ∀ as : List α, as.eraseDups.Nodup
  | [] => List.nodup_nil
  | a :: as => by
    rw [List.eraseDups_cons, List.nodup_cons, List.mem_eraseDups]
    exact ⟨by simp, nodup_eraseDups (as.filter fun b => !b == a)⟩
termination_by as => as.length
decreasing_by exact Nat.lt_succ_of_le (List.length_filter_le _ as)

theorem eraseDups_map {α β : Type} [BEq α] [LawfulBEq α] [BEq β] [LawfulBEq β] {f : α → β} :
    ∀ {as : List α}, (∀ a ∈ as, ∀ b ∈ as, f b = f a → b = a) → (as.map f).eraseDups = as.eraseDups.map f
  | [], _ => rfl
  | a :: as, h => by
    obtain ⟨ha, has⟩ := List.forall_mem_cons.1 h
    have hfilter : (as.map f).filter (fun b => !b == f a) = (as.filter fun b => !b == a).map f := by
      rw [List.filter_map]
      refine congrArg (List.map f) (List.filter_congr fun b hb => ?_)
      have : f b = f a ↔ b = a := ⟨ha b (List.mem_cons_of_mem a hb), congrArg f⟩
      simp [this]
    rw [List.map_cons, List.eraseDups_cons, List.eraseDups_cons, List.map_cons, hfilter, eraseDups_map]
    intro b hb c hc
    exact has b (List.mem_of_mem_filter hb) c (List.mem_cons_of_mem a (List.mem_of_mem_filter hc))
termination_by as => as.length
decreasing_by exact Nat.lt_succ_of_le (List.length_filter_le _ as)

theorem keyed_extend {table : List Constant} {c : Constant} (h : Keyed table) (hc : c.HasKey) :
    Keyed (extend table c) := by
  intro d hd
  obtain hd | rfl := mem_extend.1 hd
  · exact h d hd
  · exact hc

theorem keyed_eraseDups {cs : List Constant} : Keyed cs.eraseDups ↔ Keyed cs := by
  simp [Keyed]

theorem getElem?_of_isPrefix {first second : List Constant} (h : first <+: second) {index : ℕ} {c : Constant}
    (hc : first[index]? = some c) : second[index]? = some c := by
  obtain ⟨rest, rfl⟩ := h
  rw [List.getElem?_append_left (List.getElem?_eq_some_iff.1 hc).1, hc]

theorem map_key {cs : List Constant} (hk : Keyed cs) :
    cs.map (·.key) = (cs.filterMap (·.key.toOption)).map .ok := by
  induction cs with
  | nil => rfl
  | cons c cs ih =>
    obtain ⟨⟨key, hkey⟩, hcs⟩ := List.forall_mem_cons.1 hk
    rw [List.map_cons, ih hcs, hkey, List.filterMap_cons, toOption_eq_some_iff.2 hkey]
    rfl

/-- Distinct constants have distinct keys. -/
theorem map_key_eraseDups {cs : List Constant} (hk : Keyed cs) :
    cs.eraseDups.map (·.key) = (cs.filterMap (·.key.toOption)).eraseDups.map .ok := by
  have hinj (c : Constant) (hc : c ∈ cs) (d : Constant) (_ : d ∈ cs) (h : d.key = c.key) : d = c := by
    obtain ⟨key, hkey⟩ := hk c hc
    exact Constant.key_inj (h.trans hkey) hkey
  have hok (key : Tag × String) (_ : key ∈ cs.filterMap (·.key.toOption)) (other : Tag × String)
      (_ : other ∈ cs.filterMap (·.key.toOption)) (h : (.ok other : Except Fault (Tag × String)) = .ok key) :
      other = key := Except.ok.inj h
  rw [← eraseDups_map hinj, map_key hk, eraseDups_map hok]

theorem length_eraseDups_keys {cs : List Constant} (hk : Keyed cs) :
    (cs.filterMap (·.key.toOption)).eraseDups.length = cs.eraseDups.length := by
  simpa using (congrArg List.length (map_key_eraseDups hk)).symm

/-! ### Looking up a key -/

theorem findKey_eq_some {key : Tag × String} {start index : ℕ} {table : List Constant}
    (h : findKey key start table = .ok (some index)) :
    ∃ j c, index = start + j ∧ table[j]? = some c ∧ c.key = .ok key := by
  induction table generalizing start with
  | nil => cases h
  | cons c rest ih =>
    rw [findKey] at h
    split at h
    · cases h
    · rename_i other hk
      split at h
      · rename_i heq
        cases h
        exact ⟨0, c, rfl, rfl, heq ▸ hk⟩
      · obtain ⟨j, d, rfl, hj, hd⟩ := ih h
        exact ⟨j + 1, d, by omega, hj, hd⟩

theorem findKey_of_keyed {c : Constant} {key : Tag × String} (hk : c.key = .ok key) {table : List Constant}
    (ht : Keyed table) (start : ℕ) :
    findKey key start table = .ok (if c ∈ table then some (start + table.idxOf c) else none) := by
  induction table generalizing start with
  | nil => rfl
  | cons d rest ih =>
    obtain ⟨other, ho⟩ := ht d List.mem_cons_self
    rw [findKey, ho]
    by_cases hd : other = key
    · obtain rfl : d = c := Constant.key_inj (hd ▸ ho) hk
      simp [hd]
    · have hne : d ≠ c := by
        rintro rfl
        exact hd (by simpa using ho.symm.trans hk)
      simp only [if_neg hd, ih (fun e he => ht e (List.mem_cons_of_mem d he)) (start + 1)]
      simp only [List.mem_cons, hne.symm, false_or, List.idxOf_cons_ne rest hne]
      split <;> simp [Nat.add_assoc, Nat.add_comm 1]

/-! ### Adding a constant -/

namespace Chunk

theorem addConstant_eq (c : Constant) (chunk : Chunk) :
    addConstant c chunk =
      match c.key with
      | .error fault => .error fault chunk
      | .ok key =>
        match findKey key 0 chunk.constants with
        | .error fault => .error fault chunk
        | .ok (some index) => .ok index chunk
        | .ok none => .ok chunk.constants.length { chunk with constants := chunk.constants ++ [c] } := by
  simp only [addConstant, bind, EStateM.bind, get, getThe, MonadStateOf.get, EStateM.get]
  cases c.key with
  | error fault => rfl
  | ok key =>
    simp only [Stateful.lift_ok]
    cases findKey key 0 chunk.constants with
    | error fault => rfl
    | ok found => cases found <;> rfl

theorem addOperand_eq (c : Constant) (chunk : Chunk) :
    addOperand c chunk =
      match addConstant c chunk with
      | .ok index after =>
        if maxIndex < index then .error (.tooManyConstants index) after else .ok index after
      | .error fault after => .error fault after := by
  simp only [addOperand, bind, EStateM.bind]
  cases addConstant c chunk with
  | error fault after => rfl
  | ok index after =>
    by_cases hi : maxIndex < index
    · simp only [if_pos hi]
      rfl
    · simp only [if_neg hi]
      rfl

theorem addConstant_of_keyed {c : Constant} (hc : c.HasKey) {chunk : Chunk} (ht : Keyed chunk.constants) :
    addConstant c chunk = .ok (chunk.constants.idxOf c) { chunk with constants := extend chunk.constants c } := by
  obtain ⟨key, hk⟩ := hc
  rw [addConstant_eq, hk]
  simp only [findKey_of_keyed hk ht, extend]
  by_cases hm : c ∈ chunk.constants
  · simp [hm]
  · simp [hm]

theorem addConstant_of_not_hasKey {c : Constant} (hc : ¬c.HasKey) (chunk : Chunk) :
    ∃ fault, addConstant c chunk = .error fault chunk := by
  cases hk : c.key with
  | ok key => exact absurd ⟨key, hk⟩ hc
  | error fault => exact ⟨fault, by rw [addConstant_eq, hk]⟩

theorem addOperand_of_keyed {c : Constant} (hc : c.HasKey) {chunk : Chunk} (ht : Keyed chunk.constants) :
    addOperand c chunk =
      let index := chunk.constants.idxOf c
      let after := { chunk with constants := extend chunk.constants c }
      if maxIndex < index then .error (.tooManyConstants index) after else .ok index after := by
  rw [addOperand_eq, addConstant_of_keyed hc ht]

/-- In any table, an index that was given for a constant is the place of that constant, which was there or
went last. -/
theorem addConstant_ok {c : Constant} {chunk after : Chunk} {index : ℕ} (h : addConstant c chunk = .ok index after) :
    after.constants[index]? = some c ∧
      (after = chunk ∨ after = { chunk with constants := chunk.constants ++ [c] }) := by
  rw [addConstant_eq] at h
  cases hk : c.key with
  | error fault => simp only [hk] at h; cases h
  | ok key =>
    cases hf : findKey key 0 chunk.constants with
    | error fault => simp only [hk, hf] at h; cases h
    | ok found =>
      simp only [hk, hf] at h
      cases found with
      | some i =>
        obtain ⟨j, d, hj, hd, hdk⟩ := findKey_eq_some hf
        obtain rfl := Constant.key_inj hdk hk
        cases h
        exact ⟨by simpa [hj] using hd, .inl rfl⟩
      | none =>
        cases h
        exact ⟨by simp, .inr rfl⟩

theorem addOperand_ok {c : Constant} {chunk after : Chunk} {index : ℕ} (h : addOperand c chunk = .ok index after) :
    after.constants[index]? = some c ∧ index < 65536 ∧
      (after = chunk ∨ after = { chunk with constants := chunk.constants ++ [c] }) := by
  rw [addOperand_eq] at h
  cases hc : addConstant c chunk with
  | error fault after' => rw [hc] at h; cases h
  | ok i after' =>
    obtain ⟨hindex, htable⟩ := addConstant_ok hc
    by_cases hi : maxIndex < i
    · simp only [hc, if_pos hi] at h
      cases h
    · simp only [hc, if_neg hi] at h
      cases h
      exact ⟨hindex, Nat.lt_succ_of_le (Nat.not_lt.1 hi), htable⟩

end Chunk
end ScalarScript
