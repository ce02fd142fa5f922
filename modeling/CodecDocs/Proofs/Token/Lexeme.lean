import CodecDocs.Token.Lexeme
import Mathlib.Data.List.TakeWhile

/-! How much of a text a lexeme takes: at least one character and no more than there are. A number
that cannot be read is reported with exactly the characters that were taken for it. -/

namespace CodecDocs.Token

/-! ### Numbers -/

theorem suffixLength_le (text : List Char) : suffixLength text ≤ text.length := by
  unfold suffixLength
  split
  · simp
  · omega

theorem radixNumber_used {radix : ℕ} {text : List Char} {x : Binary64} {used : ℕ}
    (h : radixNumber radix text = .ok (x, used)) : 0 < used ∧ used ≤ text.length + 2 := by
  unfold radixNumber at h
  set body := text.takeWhile fun c => (Numeral.digit? radix c).isSome || c == '_' with hbody
  have hlen : body.length ≤ text.length := (List.takeWhile_prefix _).length_le
  have hsuffix := suffixLength_le (text.drop body.length)
  rw [List.length_drop] at hsuffix
  have hused : used = 2 + body.length + suffixLength (text.drop body.length) := by
    dsimp only at h
    split at h
    · split_ifs at h
      exact ((Prod.mk.inj (Except.ok.inj h)).2).symm
    · cases h
  omega

theorem decimalSpan_le (point exponent : Bool) (text : List Char) :
    (decimalSpan point exponent text).2 ≤ text.length := by
  fun_induction decimalSpan point exponent text <;> simp_all [keep]

/-- What holds of the ten digits. -/
theorem of_isDigit {p : Char → Prop} (h : ∀ n < 10, p (Char.ofNat (48 + n))) {c : Char}
    (hc : Numeral.isDigit c) : p c := by
  have hrange : 48 ≤ c.toNat ∧ c.toNat ≤ 57 := by
    unfold Numeral.isDigit at hc
    exact of_decide_eq_true hc
  have hp := h (c.toNat - 48) (by omega)
  rwa [Nat.add_sub_cancel' hrange.1, Char.ofNat_toNat] at hp

theorem not_startsWord_of_isDigit {c : Char} (h : Numeral.isDigit c) : startsWord c = false :=
  of_isDigit (p := fun c => startsWord c = false) (by decide) h

/-- A decimal number begins with a digit, or with a point and a digit. -/
theorem decimalSpan_pos {c : Char} {text : List Char}
    (h : Numeral.isDigit c ∨ (c = '.' ∧ text.head?.any Numeral.isDigit)) :
    0 < (decimalSpan false false (c :: text)).2 := by
  by_cases hc : Numeral.isDigit c
  · rw [decimalSpan.eq_def]
    simp [hc, keep]
  · obtain ⟨rfl, hnext⟩ := h.resolve_left hc
    obtain ⟨d, text, rfl⟩ : ∃ d rest, text = d :: rest := by
      cases text with
      | nil => simp at hnext
      | cons d rest => exact ⟨d, rest, rfl⟩
    have hd : startsWord d = false := not_startsWord_of_isDigit (by simpa using hnext)
    rw [decimalSpan.eq_def]
    simp [hc, hd, keep]

theorem number_used {c : Char} {text : List Char} {x : Binary64} {used : ℕ}
    (hstart : Numeral.isDigit c ∨ (c = '.' ∧ text.head?.any Numeral.isDigit))
    (h : number (c :: text) = .ok (x, used)) : 0 < used ∧ used ≤ (c :: text).length := by
  unfold number at h
  dsimp only at h
  split at h
  · next radix hradix =>
    have hlen : 2 ≤ (c :: text).length := by
      cases text with
      | nil => simp at hradix
      | cons d text => simp
    have hused := radixNumber_used h
    rw [List.length_drop] at hused
    omega
  · split at h
    · obtain ⟨-, rfl⟩ := Prod.mk.inj (Except.ok.inj h)
      have hpos := decimalSpan_pos hstart
      have hle := decimalSpan_le false false (c :: text)
      have hsuffix := suffixLength_le ((c :: text).drop (decimalSpan false false (c :: text)).2)
      rw [List.length_drop] at hsuffix
      omega
    · cases h

theorem number_invalid {text : List Char} {said : String} {used : ℕ}
    (h : number text = .error (.invalidNumber said, used)) : said.toList = text.take used := by
  unfold number at h
  dsimp only at h
  split at h
  · unfold radixNumber at h
    dsimp only at h
    split at h
    · split_ifs at h
      cases h
    · cases h
  · split at h
    · cases h
    · obtain ⟨hsaid, rfl⟩ := Prod.mk.inj (Except.error.inj h)
      rw [← LexComplaint.invalidNumber.inj hsaid, String.toList_ofList]

/-! ### Quoted texts and regular expressions -/

theorem quotedFrom_used {frames : List Frame} {read : List Char} {plain : Bool} {skip used : ℕ}
    {text : List Char} {r : List Char × Bool} {n : ℕ}
    (h : quotedFrom frames read plain skip used text = .ok (r, n)) :
    used ≤ n ∧ n ≤ used + text.length := by
  fun_induction quotedFrom frames read plain skip used text with
  | case1 =>
    obtain ⟨-, rfl⟩ := Prod.mk.inj (Except.ok.inj h)
    omega
  | case2 => cases h
  | case3 _ _ _ _ _ _ _ _ ih =>
    have := ih h
    rw [List.length_cons]
    omega
  | case4 _ _ _ _ _ _ _ _ _ ih =>
    have := ih h
    rw [List.length_cons]
    omega
  | case5 => cases h

theorem codeEscape_invalid {complaint : LexComplaint} {said : String}
    (h : complaint ≠ .invalidNumber said) (digits : List Char) (used n : ℕ) :
    codeEscape complaint digits used ≠ .error (.invalidNumber said, n) := by
  unfold codeEscape
  split
  · simp
  · simp [h]

theorem turn_invalid (frame : Frame) (outer : List Frame) (c : Char) (text : List Char)
    (said : String) (n : ℕ) : frame.turn outer c text ≠ .error (.invalidNumber said, n) := by
  have hescape : escape text ≠ .error (.invalidNumber said, n) := by
    unfold escape
    split <;> simp [codeEscape_invalid]
  have hescaped : ∀ frames, Frame.escaped frames text ≠ .error (.invalidNumber said, n) := by
    intro frames
    unfold Frame.escaped
    split
    · simp
    · next failure h =>
      rw [h] at hescape
      exact fun he => hescape (congrArg _ (Except.error.inj he))
  unfold Frame.turn
  split <;> split_ifs <;> simp [hescaped]

theorem quotedFrom_invalid (frames : List Frame) (read : List Char) (plain : Bool) (skip used : ℕ)
    (text : List Char) (said : String) (n : ℕ) :
    quotedFrom frames read plain skip used text ≠ .error (.invalidNumber said, n) := by
  fun_induction quotedFrom frames read plain skip used text with
  | case1 => simp
  | case2 frame => cases frame <;> simp [Frame.unterminated]
  | case3 _ _ _ _ _ _ _ _ ih => exact ih
  | case4 _ _ _ _ _ _ _ _ _ ih => exact ih
  | case5 _ _ _ _ _ _ _ complaint more hturn =>
    intro h
    obtain ⟨rfl, -⟩ := Prod.mk.inj (Except.error.inj h)
    exact turn_invalid _ _ _ _ said more hturn

theorem regexFrom_used {bracket : Bool} {skip used : ℕ} {text : List Char} {n : ℕ}
    (h : regexFrom bracket skip used text = .ok n) : used ≤ n ∧ n ≤ used + text.length := by
  fun_induction regexFrom bracket skip used text <;> simp_all <;> omega

theorem regexFrom_invalid (bracket : Bool) (skip used : ℕ) (text : List Char) (said : String)
    (n : ℕ) : regexFrom bracket skip used text ≠ .error (.invalidNumber said, n) := by
  fun_induction regexFrom bracket skip used text <;> simp_all

/-! ### Any lexeme -/

/-- A lexeme of this kind and length can stand at the front of the text: it takes at least one
character, takes none past the end, and is not the end itself. -/
def Takes (text : List Char) (kind : Kind) (used : ℕ) : Prop :=
  kind ≠ .eof ∧ 0 < used ∧ used ≤ text.length

theorem quoted_takes {frame : Frame} {c : Char} {text : List Char} {kind : Kind} {used : ℕ}
    (h : quoted frame text = .ok (kind, used)) : Takes (c :: text) kind used := by
  unfold quoted at h
  split at h
  · next read plain n hread =>
    obtain ⟨rfl, rfl⟩ := Prod.mk.inj (Except.ok.inj h)
    have hn := quotedFrom_used hread
    refine ⟨by split_ifs <;> simp, by omega, ?_⟩
    rw [List.length_cons]
    omega
  · cases h

theorem regex_takes {c : Char} {text : List Char} {kind : Kind} {used : ℕ}
    (h : regex (c :: text) = .ok (kind, used)) : Takes (c :: text) kind used := by
  unfold regex at h
  split at h
  · next n hread =>
    obtain ⟨rfl, rfl⟩ := Prod.mk.inj (Except.ok.inj h)
    have hn := regexFrom_used hread
    have hflags := (List.takeWhile_prefix Char.isAlpha (l := (c :: text).drop n)).length_le
    rw [List.length_drop] at hflags
    refine ⟨by simp, by omega, ?_⟩
    rw [List.drop_one, List.tail_cons] at hn
    rw [List.length_cons] at hflags ⊢
    omega
  · cases h

theorem continuesWord_of_startsWord {c : Char} (h : startsWord c) : continuesWord c := by
  unfold startsWord at h
  unfold continuesWord
  grind

theorem word_takes {c : Char} {text : List Char} (h : startsWord c) :
    Takes (c :: text) (.word (String.ofList ((c :: text).takeWhile continuesWord)))
      ((c :: text).takeWhile continuesWord).length := by
  refine ⟨by simp, ?_, (List.takeWhile_prefix _).length_le⟩
  rw [List.takeWhile_cons_of_pos (continuesWord_of_startsWord h), List.length_cons]
  omega

theorem mark_takes {text : List Char} {mark : Punct} (h : Punct.start? text = some mark) :
    Takes text (.punct mark) mark.text.length := by
  have hfront : mark.text.toList <+: text := by
    unfold Punct.start? at h
    simpa using List.find?_some h
  have hpos : 0 < mark.text.length := by cases mark <;> decide
  have hlen := hfront.length_le
  rw [String.length_toList] at hlen
  exact ⟨by simp, hpos, hlen⟩

theorem lexeme_takes {previous : Option Kind} {text : List Char} {kind : Kind} {used : ℕ}
    (hne : text ≠ []) (h : lexeme previous text = .ok (kind, used)) : Takes text kind used := by
  obtain ⟨c, text, rfl⟩ := List.exists_cons_of_ne_nil hne
  rw [lexeme] at h
  split_ifs at h with hquote htick hnumber hword hregex
  · exact quoted_takes h
  · exact quoted_takes h
  · cases hread : number (c :: text) with
    | error failure => simp [hread, Except.map] at h
    | ok r =>
      obtain ⟨x, n⟩ := r
      obtain ⟨rfl, rfl⟩ : Kind.number x = kind ∧ n = used := by simpa [hread, Except.map] using h
      exact ⟨by simp, number_used hnumber hread⟩
  · obtain ⟨rfl, rfl⟩ := Prod.mk.inj (Except.ok.inj h)
    exact word_takes hword
  · exact regex_takes h
  · split at h
    · next mark hmark =>
      obtain ⟨rfl, rfl⟩ := Prod.mk.inj (Except.ok.inj h)
      exact mark_takes hmark
    · cases h

/-- A number that cannot be read is named by the characters that were taken for it. -/
theorem lexeme_invalid {previous : Option Kind} {text : List Char} {said : String} {used : ℕ}
    (h : lexeme previous text = .error (.invalidNumber said, used)) :
    said.toList = text.take used := by
  have hquoted : ∀ frame text, quoted frame text ≠ .error (.invalidNumber said, used) := by
    intro frame text hq
    unfold quoted at hq
    split at hq
    · cases hq
    · next failure hread =>
      rw [Except.error.inj hq] at hread
      exact quotedFrom_invalid _ _ _ _ _ _ said used hread
  cases text with
  | nil => cases h
  | cons c text =>
    rw [lexeme] at h
    split_ifs at h
    · exact absurd h (hquoted _ _)
    · exact absurd h (hquoted _ _)
    · cases hread : number (c :: text) with
      | error failure =>
        obtain rfl : failure = (.invalidNumber said, used) := by simpa [hread, Except.map] using h
        exact number_invalid hread
      | ok r => simp [hread, Except.map] at h
    · unfold regex at h
      split at h
      · cases h
      · next failure hread =>
        exact absurd (hread.trans (congrArg _ (Except.error.inj h))) (regexFrom_invalid _ _ _ _ _ _)
    · split at h <;> simp at h

end CodecDocs.Token
