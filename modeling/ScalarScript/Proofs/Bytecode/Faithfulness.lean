import ScalarScript.Proofs.Bytecode.Listing
import ScalarScript.Proofs.Text.OneLine

/-! Listings are faithful. Every line of a listing is one line, whatever text a constant quotes, so the lines can be
told apart, and the marker parts those of the code from those of the table. A line of the code determines its
instruction, and a line of the table the key of its constant. So chunks have one listing only if they have one code
and one list of keys. -/
namespace ScalarScript

open Text Instruction

/-! ### Lines of the code -/

theorem oneLine_digits (n : ℕ) : OneLine (Nat.toDigits 10 n) := oneLine_of_isDigit fun _ => isDigit_of_mem_toDigits

theorem oneLine_positionText (n : ℕ) : OneLine (positionText n).toList := by
  rw [toList_positionText, oneLine_append]
  exact ⟨oneLine_of_isDigit fun _ => isDigit_of_mem_replicate, oneLine_digits n⟩

theorem oneLine_opcodeText (byte : UInt8) : OneLine (opcodeText byte).toList :=
  fun h => absurd (blank_lt_of_mem_opcodeText h) (by decide)

namespace Instruction

theorem oneLine_operandText (i : Instruction) : OneLine i.operandText.toList := by
  rw [operandText]
  cases i.index? with
  | none => exact oneLine_nil
  | some index => simp [Nat.toString_eq_repr, Nat.toList_repr, oneLine_digits]

theorem oneLine_line (entry : ℕ × Instruction) : OneLine (line entry).toList := by
  simp [toList_line, oneLine_positionText, oneLine_opcodeText, oneLine_operandText]

/-- Whole instructions are told apart by what a line shows of them. -/
theorem Whole.eq_of_line {a b : ℕ × Instruction} (ha : a.2.Whole) (hb : b.2.Whole) (h : line a = line b) :
    a.2 = b.2 := by
  obtain ⟨-, ho, hi⟩ := line_inj h
  cases hp : a.2.is .pushConst with
  | true =>
    have hp' : b.2.is .pushConst = true := is_iff.2 (ho ▸ is_iff.1 hp)
    obtain ⟨m, -, hm, hma⟩ := exists_index_of_whole ha hp
    obtain ⟨n, -, hn, hnb⟩ := exists_index_of_whole hb hp'
    rw [hm, hn, Option.some.inj (hma.symm.trans (hi.trans hnb))]
  | false =>
    have hp' : b.2.is .pushConst = false := by rw [Instruction.is, ← ho]; exact hp
    have hao : a.2.operands = [] := by simpa [Whole, hp] using ha
    have hbo : b.2.operands = [] := by simpa [Whole, hp'] using hb
    rw [show a.2 = ⟨a.2.opcode, a.2.operands⟩ from rfl, ho, hao, ← hbo]

end Instruction

theorem whole_of_not_endsCut {code : List UInt8} (h : ¬EndsCut (decodeFrom 0 code)) :
    ∀ entry ∈ decodeFrom 0 code, entry.2.Whole := by
  intro entry hm
  refine (stream_decode code).whole (fun i hi hcut => ?_) entry.2 (List.mem_map_of_mem hm)
  obtain ⟨last, hl, rfl⟩ := List.mem_map.1 hi
  exact h ⟨last, getLast?_of_cut hl hcut, hcut⟩

/-- What one function tells apart, another tells apart in lists as well. -/
theorem map_eq_map_of_imp {α β γ : Type} {f : α → β} {g : α → γ} {as bs : List α}
    (himp : ∀ a ∈ as, ∀ b ∈ bs, f a = f b → g a = g b) (h : as.map f = bs.map f) : as.map g = bs.map g := by
  induction as generalizing bs with
  | nil => rw [List.map_eq_nil_iff.1 h.symm]
  | cons a as ih =>
    cases bs with
    | nil => cases h
    | cons b bs =>
      obtain ⟨hab, hrest⟩ := List.cons.inj h
      have htail := ih (fun a ha b hb => himp a (List.mem_cons_of_mem _ ha) b (List.mem_cons_of_mem _ hb)) hrest
      rw [List.map_cons, List.map_cons, himp a List.mem_cons_self b List.mem_cons_self hab, htail]

/-- Code that is not cut short is told by its lines. -/
theorem code_eq_of_lines {code other : List UInt8} (hc : ¬EndsCut (decodeFrom 0 code))
    (ho : ¬EndsCut (decodeFrom 0 other)) (h : (decodeFrom 0 code).map line = (decodeFrom 0 other).map line) :
    code = other := by
  have hdecode : decode code = decode other := map_eq_map_of_imp (fun a ha b hb =>
    Whole.eq_of_line (whole_of_not_endsCut hc a ha) (whole_of_not_endsCut ho b hb)) h
  rw [← assemble_decode code, hdecode, assemble_decode]

/-! ### Lines of the table -/

theorem Tag.name_inj {t u : Tag} (h : t.name.toList = u.name.toList) : t = u := by
  revert h
  cases t <;> cases u <;> decide

theorem Tag.blank_lt_of_mem_name (t : Tag) : ∀ c ∈ t.name.toList, ' ' < c := by
  cases t <;> exact List.all_iff_forall_prop.1 (by decide)

/-- The line of a constant, by its key and its index. -/
def entryLine (entry : (Tag × String) × ℕ) : String :=
  "[" ++ toString entry.2 ++ "] " ++ ("Constant(" ++ entry.1.2 ++ ": " ++ entry.1.1.name ++ ")")

theorem toList_entryLine (entry : (Tag × String) × ℕ) :
    (entryLine entry).toList = '[' :: (Nat.toDigits 10 entry.2 ++ ("] Constant(".toList ++
      (entry.1.2.toList ++ ':' :: ' ' :: (entry.1.1.name.toList ++ [')'])))) := by
  simp [entryLine, Nat.toString_eq_repr, Nat.toList_repr]

/-- What a text is tagged with is read from the end, up to the last blank. -/
theorem tagged_inj {text other : List Char} {t u : Tag}
    (h : text ++ ':' :: ' ' :: (t.name.toList ++ [')']) = other ++ ':' :: ' ' :: (u.name.toList ++ [')'])) :
    text = other ∧ t = u := by
  have hreverse (cs : List Char) (t : Tag) : (cs ++ ':' :: ' ' :: (t.name.toList ++ [')'])).reverse =
      (')' :: t.name.toList.reverse) ++ ' ' :: ':' :: cs.reverse := by simp
  have hblank (t : Tag) : ' ' ∉ ')' :: t.name.toList.reverse := by
    rw [List.mem_cons, List.mem_reverse, not_or]
    exact ⟨by decide, fun hm => lt_irrefl _ (t.blank_lt_of_mem_name _ hm)⟩
  have hr := congrArg List.reverse h
  rw [hreverse, hreverse] at hr
  obtain ⟨hname, htext⟩ := field_inj (hblank t) (hblank u) (by simp) (by simp) hr
  simp only [List.cons.injEq, true_and, List.reverse_inj] at hname htext
  exact ⟨htext, Tag.name_inj hname⟩

theorem entryLine_injective : Function.Injective entryLine := by
  rintro ⟨⟨t, text⟩, m⟩ ⟨⟨u, other⟩, n⟩ h
  have hl := congrArg String.toList h
  rw [toList_entryLine, toList_entryLine] at hl
  have hbracket (k : ℕ) : ']' ∉ Nat.toDigits 10 k := fun hm => absurd (isDigit_of_mem_toDigits hm) (by decide)
  obtain ⟨hdigits, hrest⟩ := field_inj (hbracket m) (hbracket n) (by simp) (by simp) (List.cons.inj hl).2
  obtain ⟨htext, htag⟩ := tagged_inj (List.append_cancel_left hrest)
  exact Prod.ext (Prod.ext htag (String.toList_inj.1 htext)) (toDigits_inj hdigits)

theorem oneLine_entryLine {entry : (Tag × String) × ℕ} (h : OneLine entry.1.2.toList) :
    OneLine (entryLine entry).toList := by
  have hname : OneLine entry.1.1.name.toList := fun hm => absurd (entry.1.1.blank_lt_of_mem_name _ hm) (by decide)
  simp [toList_entryLine, oneLine_digits, h, hname]

theorem constantLine_eq (index : ℕ) (c : Constant) :
    constantLine index c = c.key.map fun key => entryLine (key, index) := by
  rw [constantLine, Constant.inspect, Constant.key]
  cases c.value.inspect <;> rfl

/-- The lines of a table are those of its keys. -/
theorem tableLines_eq {cs : List Constant} {keys : List (Tag × String)} (h : cs.map (·.key) = keys.map .ok)
    (start : ℕ) :
    ((cs.zipIdx start).mapM fun (c, index) => constantLine index c) = .ok ((keys.zipIdx start).map entryLine) := by
  induction cs generalizing keys start with
  | nil =>
    rw [List.map_eq_nil_iff.1 h.symm]
    rfl
  | cons c cs ih =>
    cases keys with
    | nil => cases h
    | cons key keys =>
      obtain ⟨hkey, hrest⟩ := List.cons.inj h
      have hline : constantLine start c = .ok (entryLine (key, start)) := by
        rw [constantLine_eq, show c.key = .ok key from hkey]
        rfl
      simp only [List.zipIdx_cons, List.mapM_cons, hline, ih hrest]
      rfl

/-! ### Listings -/

/-- The lines of a listing, by the code and the keys of the table. -/
def listingLines (code : List UInt8) (keys : List (Tag × String)) : List String :=
  (decodeFrom 0 code).map line ++ "-- constants --" :: keys.zipIdx.map entryLine

theorem listingLines_inj {code other : List UInt8} {keys others : List (Tag × String)}
    (hc : ¬EndsCut (decodeFrom 0 code)) (ho : ¬EndsCut (decodeFrom 0 other))
    (h : listingLines code keys = listingLines other others) : code = other ∧ keys = others := by
  have hcode : "-- constants --" ∉ (decodeFrom 0 code).map line := by
    intro hm
    obtain ⟨entry, -, he⟩ := List.mem_map.1 hm
    have hcolon : ':' ∈ (line entry).toList := by simp [toList_line]
    rw [he] at hcolon
    exact absurd hcolon (by decide)
  have htable : "-- constants --" ∉ keys.zipIdx.map entryLine := by
    intro hm
    obtain ⟨entry, -, he⟩ := List.mem_map.1 hm
    have hbracket : '[' ∈ (entryLine entry).toList := by simp [toList_entryLine]
    rw [he] at hbracket
    exact absurd hbracket (by decide)
  obtain ⟨hlines, -, hentries⟩ := (List.append_cons_inj_of_notMem hcode htable).1 h
  have hkeys := congrArg (List.map Prod.fst) (List.map_injective_iff.2 entryLine_injective hentries)
  rw [List.zipIdx_map_fst, List.zipIdx_map_fst] at hkeys
  exact ⟨code_eq_of_lines hc ho hlines, hkeys⟩

theorem oneLine_listingLines {cs : List Constant} {keys : List (Tag × String)} (h : cs.map (·.key) = keys.map .ok)
    (code : List UInt8) : ∀ line ∈ listingLines code keys, OneLine line.toList := by
  intro text hm
  rcases List.mem_append.1 hm with hm | hm
  · obtain ⟨entry, -, rfl⟩ := List.mem_map.1 hm
    exact oneLine_line entry
  · rcases List.mem_cons.1 hm with rfl | hm
    · simp
    · obtain ⟨entry, he, rfl⟩ := List.mem_map.1 hm
      have hkey : .ok entry.1 ∈ cs.map (·.key) := h ▸ List.mem_map_of_mem (List.fst_mem_of_mem_zipIdx he)
      obtain ⟨c, -, hc⟩ := List.mem_map.1 hkey
      exact oneLine_entryLine (Native.oneLine_inspect (Constant.key_eq_ok_iff.1 hc).2)

namespace Chunk

theorem listing_of_keys {chunk : Chunk} {keys : List (Tag × String)} (hk : chunk.constants.map (·.key) = keys.map .ok)
    (hc : ¬EndsCut (decodeFrom 0 chunk.code)) :
    chunk.listing = .ok ("\n".intercalate (listingLines chunk.code keys)) := by
  have hl := ((codeLines_cases 0 chunk.code).resolve_left fun h => hc h.1).2
  rw [listing, hl, tableLines_eq hk 0]
  rfl

/-- Two chunks have one listing just if they have one code, and tables of one length with the same keys. -/
theorem listing_faithful {a b : Chunk} (ha : Keyed a.constants) (hb : Keyed b.constants)
    (hca : ¬EndsCut (decodeFrom 0 a.code)) (hcb : ¬EndsCut (decodeFrom 0 b.code)) :
    ∃ s t, a.listing = .ok s ∧ b.listing = .ok t ∧
      (s = t ↔ a.code = b.code ∧ List.Forall₂ (fun c d => c.key = d.key) a.constants b.constants) := by
  have hka := map_key ha
  have hkb := map_key hb
  have hkeys : List.Forall₂ (fun c d => c.key = d.key) a.constants b.constants ↔
      a.constants.map (·.key) = b.constants.map (·.key) := by
    rw [← List.forall₂_eq_eq_eq, List.forall₂_map_left_iff, List.forall₂_map_right_iff]
  refine ⟨_, _, listing_of_keys hka hca, listing_of_keys hkb hcb, ?_⟩
  rw [hkeys, hka, hkb, List.map_inj_right fun _ _ => Except.ok.inj]
  constructor
  · intro h
    exact listingLines_inj hca hcb (lines_inj (oneLine_listingLines hka a.code) (oneLine_listingLines hkb b.code)
      (by simp [listingLines]) (by simp [listingLines]) h)
  · rintro ⟨hcode, hsame⟩
    rw [hcode, hsame]

/-- A text that imitates the end of its line and another entry. -/
theorem listing_faithful_of_imitation :
    Keyed [⟨.string, .string "x': STRING)\n[1] Constant('y"⟩] ∧
      Keyed [⟨.string, .string "x"⟩, ⟨.string, .string "y"⟩] ∧ ¬EndsCut (decodeFrom 0 []) ∧
      ∃ s t, listing ⟨[], [⟨.string, .string "x': STRING)\n[1] Constant('y"⟩]⟩ = .ok s ∧
        listing ⟨[], [⟨.string, .string "x"⟩, ⟨.string, .string "y"⟩]⟩ = .ok t ∧ s ≠ t := by
  have hkeyed (texts : List String) : Keyed (texts.map fun text => ⟨.string, .string text⟩) := by
    refine List.forall_mem_map.2 fun text _ => ⟨_, rfl⟩
  have ha := hkeyed ["x': STRING)\n[1] Constant('y"]
  have hb := hkeyed ["x", "y"]
  obtain ⟨s, t, hs, ht, hst⟩ := listing_faithful (a := ⟨[], _⟩) (b := ⟨[], _⟩) ha hb not_endsCut_nil not_endsCut_nil
  refine ⟨ha, hb, not_endsCut_nil, s, t, hs, ht, fun h => ?_⟩
  cases (hst.1 h).2.length_eq

end Chunk

end ScalarScript
