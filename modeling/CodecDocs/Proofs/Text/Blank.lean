import CodecDocs.Text.Blank
import CodecDocs.Text.Lines
import Mathlib.Data.List.TakeWhile

/-! What is left of a text without its white space. Neither trimming nor cutting into lines loses
any of it, and pieces keep it when they are put together with white space between them. -/

namespace CodecDocs.Text

/-! ### White space and other characters -/

theorem Ranges.exists_of_contains {ranges : Ranges} {n : ℕ} (h : ranges.contains n = true) :
    ∃ r ∈ ranges, r.1 ≤ n ∧ n ≤ r.2 := by
  induction ranges with
  | nil => cases h
  | cons r ranges ih =>
    rw [contains] at h
    split_ifs at h with hlow hhigh
    · exact ⟨r, List.mem_cons_self, by omega⟩
    · obtain ⟨s, hs, hn⟩ := ih h
      exact ⟨s, List.mem_cons_of_mem r hs, hn⟩

/-- A class of characters has no white space in it if it has none of the few there are. -/
theorem isBlank_eq_false {p : Char → Bool}
    (h : ∀ r ∈ blanks, ∀ n ∈ List.range' r.1 (r.2 + 1 - r.1), p (Char.ofNat n) = false) {c : Char}
    (hc : p c = true) : isBlank c = false := by
  by_contra hblank
  rw [Bool.not_eq_false] at hblank
  obtain ⟨r, hr, hlow, hhigh⟩ := Ranges.exists_of_contains hblank
  have hmem : c.toNat ∈ List.range' r.1 (r.2 + 1 - r.1) := by
    rw [List.mem_range'_1]
    omega
  have hnot := h r hr c.toNat hmem
  rw [Char.ofNat_toNat, hc] at hnot
  cases hnot

/-! ### Text without white space -/

def strip (text : List Char) : List Char := text.filter (!isBlank ·)

@[simp] theorem strip_nil : strip [] = [] := rfl

@[simp] theorem strip_append (text more : List Char) :
    strip (text ++ more) = strip text ++ strip more := List.filter_append text more

theorem strip_cons_of_blank {c : Char} (h : isBlank c = true) (text : List Char) :
    strip (c :: text) = strip text := List.filter_cons_of_neg (by simp [h])

theorem strip_of_not_blank {text : List Char} (h : ∀ c ∈ text, isBlank c = false) :
    strip text = text := List.filter_eq_self.mpr fun c hc => by simp [h c hc]

theorem strip_eq_nil_iff {text : List Char} : strip text = [] ↔ ∀ c ∈ text, isBlank c = true := by
  simp [strip, List.filter_eq_nil_iff]

theorem strip_reverse (text : List Char) : strip text.reverse = (strip text).reverse :=
  List.filter_reverse

theorem strip_dropWhile (text : List Char) : strip (text.dropWhile isBlank) = strip text := by
  have hblank : strip (text.takeWhile isBlank) = [] :=
    strip_eq_nil_iff.mpr fun _ hc => List.mem_takeWhile_imp hc
  calc strip (text.dropWhile isBlank)
      = strip (text.takeWhile isBlank ++ text.dropWhile isBlank) := by
        rw [strip_append, hblank, List.nil_append]
    _ = strip text := by rw [List.takeWhile_append_dropWhile]

@[simp] theorem strip_trim (text : List Char) : strip (trim text) = strip text := by
  rw [trim, trimEnd, trimStart, strip_reverse, strip_dropWhile, strip_reverse, List.reverse_reverse,
    strip_dropWhile]

/-- Trimming takes away a text that has nothing but white space. -/
theorem trim_eq_nil {text : List Char} (h : strip text = []) : trim text = [] := by
  have hstart : trimStart text = [] := List.dropWhile_eq_nil_iff.mpr (strip_eq_nil_iff.mp h)
  rw [trim, hstart]
  rfl

/-! ### Pieces and lines -/

/-- White space between pieces makes no difference. -/
theorem strip_join {separator : List Char} (h : strip separator = []) (pieces : List (List Char)) :
    strip (join separator pieces) = pieces.flatMap strip := by
  induction pieces with
  | nil => rfl
  | cons piece pieces ih =>
    cases pieces with
    | nil => simp [join]
    | cons next pieces =>
      have hjoin : join separator (piece :: next :: pieces) =
          piece ++ separator ++ join separator (next :: pieces) := by simp [join]
      rw [List.flatMap_cons, hjoin, strip_append, strip_append, ih, h, List.append_nil]

/-- The carriage return of a line break is white space itself. -/
theorem strip_dropReturn (line : List Char) : strip (dropReturn line) = strip line := by
  unfold dropReturn
  split
  · rw [strip_cons_of_blank (by decide)]
  · rfl

theorem flatMap_strip_linesFrom (line text : List Char) :
    (linesFrom line text).flatMap strip = (strip line).reverse ++ strip text := by
  induction text generalizing line with
  | nil =>
    rw [linesFrom]
    split_ifs with hline
    · simp [List.isEmpty_iff.mp hline]
    · simp [strip_reverse]
  | cons c text ih =>
    rw [linesFrom]
    split_ifs with hc
    · have hblank : isBlank c = true := by
        rw [hc]
        decide
      rw [List.flatMap_cons, ih, strip_reverse, strip_dropReturn, strip_cons_of_blank hblank]
      rfl
    · have hcons : ∀ text, strip (c :: text) = strip [c] ++ strip text :=
        fun text => strip_append [c] text
      have hone : (strip [c]).reverse = strip [c] := by
        rw [← strip_reverse, List.reverse_singleton]
      rw [ih, hcons line, hcons text, List.reverse_append, hone, List.append_assoc]

/-- Lines say what their text says. -/
theorem flatMap_strip_lines (text : List Char) : (lines text).flatMap strip = strip text := by
  rw [lines, flatMap_strip_linesFrom, strip_nil, List.reverse_nil, List.nil_append]

end CodecDocs.Text
