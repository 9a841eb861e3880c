import ScalarScript.Proofs.Bytecode.Table
import ScalarScript.Proofs.Number.Bits

/-! Sharing of constants. Two constants share an entry of a table just if they have the same tag and the same
value, of the same kind and down to the bits of a double, NaN aside. The index of a constant is the least one
that holds the constant, and the entry there stands for the same value. -/
namespace ScalarScript

theorem Constant.key_eq_key_iff {c d : Constant} (hc : c.HasKey) :
    c.key = d.key ↔ c.tag = d.tag ∧ c.value = d.value := by
  obtain ⟨key, hk⟩ := hc
  constructor
  · intro h
    obtain rfl := key_inj hk (h ▸ hk)
    exact ⟨rfl, rfl⟩
  · rintro ⟨ht, hv⟩
    rw [Constant.key, Constant.key, ht, hv]

theorem Native.double_ofBits_eq_iff (u w : UInt64) :
    double (.ofBits u.toNat) = double (.ofBits w.toNat) ↔
      u = w ∨ Double.IsNanWord u.toNat ∧ Double.IsNanWord w.toNat := by
  rw [double.injEq, Double.ofBits_eq_ofBits_iff u.toNat_lt w.toNat_lt, UInt64.toNat_inj]

/-! ### Looking up -/

/-- The least index of a table at which the constant stands. -/
structure FirstAt (table : List Constant) (c : Constant) (index : ℕ) : Prop where
  entry : table[index]? = some c
  before : ∀ j < index, table[j]? ≠ some c

/-- No entry before the one that is found has the key, and none at all if none is found. -/
theorem key_ne_of_findKey {key : Tag × String} {start : ℕ} {table : List Constant} {found : Option ℕ}
    (h : findKey key start table = .ok found) {j : ℕ} (hj : ∀ index ∈ found, start + j < index) {d : Constant}
    (hd : table[j]? = some d) : d.key ≠ .ok key := by
  induction table generalizing start j with
  | nil => simp at hd
  | cons c rest ih =>
    rw [findKey] at h
    split at h
    · cases h
    · rename_i other hk
      split at h
      · cases h
        exact absurd (hj start rfl) (by omega)
      · rename_i hne
        cases j with
        | zero =>
          obtain rfl : c = d := Option.some.inj hd
          simp [hk, hne]
        | succ j =>
          refine ih h (fun index hi => ?_) hd
          have := hj index hi
          omega

namespace Chunk

/-- Whatever else the table holds, an index that is given for a constant is the first one where it stands. -/
theorem firstAt_of_addConstant {c : Constant} {chunk after : Chunk} {index : ℕ}
    (h : addConstant c chunk = .ok index after) :
    FirstAt after.constants c index ∧ after = { chunk with constants := extend chunk.constants c } := by
  have hentry := (addConstant_ok h).1
  rw [addConstant_eq] at h
  cases hk : c.key with
  | error fault => simp only [hk] at h; cases h
  | ok key =>
    cases hf : findKey key 0 chunk.constants with
    | error fault => simp only [hk, hf] at h; cases h
    | ok found =>
      simp only [hk, hf] at h
      cases found with
      | some i =>
        cases h
        refine ⟨⟨hentry, fun j hj hd => key_ne_of_findKey hf (by simpa using hj) hd hk⟩, ?_⟩
        rw [extend, if_pos (List.mem_of_getElem? hentry)]
      | none =>
        cases h
        have hnew {j : ℕ} : chunk.constants[j]? ≠ some c := fun hd => key_ne_of_findKey hf (by simp) hd hk
        refine ⟨⟨hentry, fun j hj => ?_⟩, ?_⟩
        · rw [List.getElem?_append_left hj]
          exact hnew
        · rw [extend, if_neg fun hm => (List.getElem?_of_mem hm).elim fun j hj => hnew hj]

/-- Keys tell constants apart exactly, and so a table shares an entry between constants that are the same and
between no others: a constant is given its least index, goes last if it was not there, and stands for what
the entry at its index stands for. -/
theorem shares_identical :
    (∀ c d : Constant, c.HasKey → d.HasKey → (c.key = d.key ↔ c.tag = d.tag ∧ c.value = d.value)) ∧
      (∀ u w : UInt64, Native.double (.ofBits u.toNat) = .double (.ofBits w.toNat) ↔
        u = w ∨ Double.IsNanWord u.toNat ∧ Double.IsNanWord w.toNat) ∧
      (∀ c chunk index after, addConstant c chunk = .ok index after →
        FirstAt after.constants c index ∧ after = { chunk with constants := extend chunk.constants c } ∧
          ∀ d, after.constants[index]? = some d → d.toValue = c.toValue) ∧
      ∀ c chunk, c.HasKey → Keyed chunk.constants → ∃ index after, addConstant c chunk = .ok index after := by
  refine ⟨fun c d hc _ => Constant.key_eq_key_iff hc, Native.double_ofBits_eq_iff, fun c chunk index after h => ?_,
    fun c chunk hc hk => ⟨_, _, addConstant_of_keyed hc hk⟩⟩
  obtain ⟨hfirst, hafter⟩ := firstAt_of_addConstant h
  refine ⟨hfirst, hafter, fun d hd => ?_⟩
  rw [Option.some.inj (hd.symm.trans hfirst.entry)]

/-- The two zeros do not share an entry. -/
theorem shares_identical_of_zeros :
    Constant.key ⟨.double, .double (.zero false)⟩ ≠ Constant.key ⟨.double, .double (.zero true)⟩ ∧
      ∃ index after, addConstant ⟨.double, .double (.zero true)⟩ ⟨[], [⟨.double, .double (.zero false)⟩]⟩ =
          .ok index after ∧ FirstAt after.constants ⟨.double, .double (.zero true)⟩ index := by
  obtain ⟨hkey, -, hfirst, hexists⟩ := shares_identical
  have hk (negative : Bool) : Constant.HasKey ⟨.double, .double (.zero negative)⟩ := ⟨_, rfl⟩
  refine ⟨fun h => ?_, ?_⟩
  · have hv := ((hkey _ _ (hk false) (hk true)).1 h).2
    simp [Double.zero] at hv
  · obtain ⟨index, after, h⟩ := hexists _ ⟨[], [_]⟩ (hk true) (List.forall_mem_singleton.2 (hk false))
    exact ⟨index, after, h, (hfirst _ _ _ _ h).1⟩

end Chunk
end ScalarScript
