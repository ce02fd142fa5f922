import CodecDocs.Token.Gap
import Mathlib.Data.List.Infix

/-! What a gap is made of: white space, comments to the end of a line and block comments. Every gap
that is skipped splits into such pieces, and its documentation is that of the last block among them
that has one. -/

namespace CodecDocs.Token.Gap

inductive Piece where
  | blank (c : Char)
  /-- Two slashes and the text up to the next line break. -/
  | line (body : List Char)
  /-- The text up to the first star with a slash after it. -/
  | block (body : List Char)

namespace Piece

def text : Piece → List Char
  | blank c => [c]
  | line body => ['/', '/'] ++ body
  | block body => ['/', '*'] ++ body ++ ['*', '/']

/-- The piece ends where `rest` begins. -/
def Fits (rest : List Char) : Piece → Prop
  | blank c => Text.isBlank c
  | line body => '\n' ∉ body ∧ ∀ c ∈ rest.head?, c = '\n'
  | block body => ¬ ['*', '/'] <:+: body

/-- The documentation in a block that begins with two stars. -/
def doc? : Piece → Option String
  | block ('*' :: body) => some (cleanDoc body)
  | _ => none

theorem text_ne_nil (p : Piece) : p.text ≠ [] := by cases p <;> simp [text]

end Piece

def textOf (pieces : List Piece) : List Char := pieces.flatMap Piece.text

/-- Each of the pieces ends where the next one begins, and the last of them before `rest`. -/
def Fits : List Piece → List Char → Prop
  | [], _ => True
  | p :: pieces, rest => p.Fits (textOf pieces ++ rest) ∧ Fits pieces rest

/-- The documentation in the last block that has some. -/
def lastDoc (pieces : List Piece) : Option String := (pieces.filterMap Piece.doc?).getLast?

@[simp] theorem textOf_nil : textOf [] = [] := rfl

@[simp] theorem textOf_cons (p : Piece) (pieces : List Piece) :
    textOf (p :: pieces) = p.text ++ textOf pieces := List.flatMap_cons

@[simp] theorem textOf_append (pieces more : List Piece) :
    textOf (pieces ++ more) = textOf pieces ++ textOf more := List.flatMap_append

theorem lastDoc_cons (p : Piece) (pieces : List Piece) :
    lastDoc (p :: pieces) = (lastDoc pieces).or p.doc? := by
  unfold lastDoc
  cases hp : p.doc? with
  | none => simp [hp]
  | some doc =>
    cases h : (pieces.filterMap Piece.doc?).getLast? <;> simp [hp, List.getLast?_cons, h]

/-! ### One piece -/

section Piece

variable (doc : Option String) (used : ℕ)

@[simp] theorem scanFrom_skip (mode : Mode) (skip : ℕ) (c : Char) (text : List Char) :
    scanFrom mode doc (skip + 1) used (c :: text) = scanFrom mode doc skip (used + 1) text := by
  cases mode <;> rfl

theorem scanFrom_line {body rest : List Char} (hbody : '\n' ∉ body)
    (hrest : ∀ c ∈ rest.head?, c = '\n') :
    scanFrom .line doc 0 used (body ++ rest) =
      scanFrom .between doc 0 (used + body.length) rest := by
  induction body generalizing used with
  | nil =>
    cases rest with
    | nil => rfl
    | cons c rest =>
      -- the line break ends the comment and is white space itself
      obtain rfl : c = '\n' := hrest c rfl
      have hblank : Text.isBlank '\n' := by decide
      simp [scanFrom, hblank]
  | cons c body ih =>
    have hc : c ≠ '\n' := fun h => hbody (h ▸ List.mem_cons_self)
    have htail : '\n' ∉ body := fun h => hbody (List.mem_cons_of_mem c h)
    rw [List.cons_append, scanFrom, if_neg hc, ih (used + 1) htail, List.length_cons,
      Nat.add_right_comm, Nat.add_assoc]

/-- A block comment ends at the first star with a slash after it. -/
theorem scanFrom_block (read : List Char) {body : List Char} (rest : List Char)
    (hbody : ¬ ['*', '/'] <:+: body) :
    scanFrom (.block read) doc 0 used (body ++ ['*', '/'] ++ rest) =
      scanFrom .between (docAfter doc (body.reverse ++ read)) 0 (used + (body.length + 2))
        rest := by
  induction body generalizing used read with
  | nil => simp [scanFrom]
  | cons c body ih =>
    have htail : ¬ ['*', '/'] <:+: body := fun h =>
      hbody (h.trans (List.suffix_cons c body).isInfix)
    have hopen : ¬ (c = '*' ∧ (body ++ ['*', '/'] ++ rest).head? = some '/') := by
      rintro ⟨rfl, hnext⟩
      cases body with
      | nil => simp at hnext
      | cons d body =>
        obtain rfl : d = '/' := by simpa using hnext
        exact hbody ⟨[], body, rfl⟩
    rw [List.cons_append, List.cons_append, scanFrom, if_neg hopen, ih (used + 1) (c :: read) htail,
      List.reverse_cons, List.append_assoc, List.singleton_append, List.length_cons]
    congr 1
    omega

theorem docAfter_reverse (body : List Char) :
    docAfter doc body.reverse = (Piece.block body).doc?.or doc := by
  rw [docAfter, List.reverse_reverse]
  match body with
  | [] => rfl
  | c :: body =>
    by_cases hc : c = '*'
    · subst hc
      rfl
    · simp [Piece.doc?, hc]

theorem scanFrom_piece {p : Piece} {rest : List Char} (h : p.Fits rest) :
    scanFrom .between doc 0 used (p.text ++ rest) =
      scanFrom .between (p.doc?.or doc) 0 (used + p.text.length) rest := by
  have hslash : Text.isBlank '/' = false := by decide
  cases p with
  | blank c =>
    have hc : Text.isBlank c := h
    simp [Piece.text, Piece.doc?, scanFrom, hc]
  | line body =>
    have hend := scanFrom_line doc (used + 2) h.1 h.2
    have hlen : used + (Piece.line body).text.length = used + 2 + body.length := by
      simp only [Piece.text, List.length_append, List.length_cons, List.length_nil]
      omega
    rw [hlen]
    simpa [Piece.text, Piece.doc?, scanFrom, hslash] using hend
  | block body =>
    have hend := scanFrom_block doc (used + 2) [] rest h
    have hlen : used + (Piece.block body).text.length = used + 2 + (body.length + 2) := by
      simp only [Piece.text, List.length_append, List.length_cons, List.length_nil]
      omega
    rw [List.append_nil, docAfter_reverse] at hend
    rw [hlen]
    simpa [Piece.text, scanFrom, hslash] using hend

variable {doc used}

/-- A block that is left has ended. -/
theorem exists_block_end {read text : List Char} {r : Option String × ℕ}
    (h : scanFrom (.block read) doc 0 used text = .ok r) :
    ∃ body rest, text = body ++ ['*', '/'] ++ rest ∧ ¬ ['*', '/'] <:+: body := by
  induction text generalizing read used with
  | nil => simp [scanFrom] at h
  | cons c text ih =>
    rw [scanFrom] at h
    split_ifs at h with hend
    · obtain ⟨rfl, hnext⟩ := hend
      obtain ⟨rest, rfl⟩ := List.head?_eq_some_iff.1 hnext
      exact ⟨[], rest, rfl, by simp⟩
    · obtain ⟨body, rest, rfl, hbody⟩ := ih h
      refine ⟨c :: body, rest, rfl, fun hin => ?_⟩
      rcases List.infix_cons_iff.1 hin with hstart | hin
      · obtain ⟨tail, htail⟩ := hstart
        obtain ⟨rfl, rfl⟩ : '*' = c ∧ '/' :: tail = body := by simpa using htail
        exact hend ⟨rfl, rfl⟩
      · exact hbody hin

theorem exists_line_end (text : List Char) :
    ∃ body rest, text = body ++ rest ∧ '\n' ∉ body ∧ ∀ c ∈ rest.head?, c = '\n' := by
  induction text with
  | nil => exact ⟨[], [], rfl, by simp, by simp⟩
  | cons c text ih =>
    by_cases hc : c = '\n'
    · exact ⟨[], c :: text, rfl, by simp, by simp [hc]⟩
    · obtain ⟨body, rest, rfl, hbody, hrest⟩ := ih
      exact ⟨c :: body, rest, rfl, by simp [hbody, Ne.symm hc], hrest⟩

/-- The gap is over, or a piece of it stands at the front. -/
theorem exists_piece {text : List Char} {r : Option String × ℕ}
    (h : scanFrom .between doc 0 used text = .ok r) :
    r = (doc, used) ∨ ∃ p rest, text = Piece.text p ++ rest ∧ p.Fits rest := by
  cases text with
  | nil => exact .inl (by simpa [scanFrom] using h.symm)
  | cons c text =>
    rw [scanFrom] at h
    split_ifs at h with hblank hline hblock
    · exact .inr ⟨.blank c, text, rfl, hblank⟩
    · obtain ⟨rfl, hnext⟩ := hline
      obtain ⟨text, rfl⟩ := List.head?_eq_some_iff.1 hnext
      obtain ⟨body, rest, rfl, hbody⟩ := exists_line_end text
      exact .inr ⟨.line body, rest, rfl, hbody⟩
    · obtain ⟨rfl, hnext⟩ := hblock
      obtain ⟨text, rfl⟩ := List.head?_eq_some_iff.1 hnext
      rw [scanFrom_skip] at h
      obtain ⟨body, rest, rfl, hbody⟩ := exists_block_end h
      exact .inr ⟨.block body, rest, by simp [Piece.text], hbody⟩
    · exact .inl (by simpa using h.symm)

end Piece

/-! ### Whole gaps -/

theorem scanFrom_textOf {pieces : List Piece} {rest : List Char} (h : Fits pieces rest)
    (doc : Option String) (used : ℕ) :
    scanFrom .between doc 0 used (textOf pieces ++ rest) =
      scanFrom .between ((lastDoc pieces).or doc) 0 (used + (textOf pieces).length) rest := by
  induction pieces generalizing doc used with
  | nil => rfl
  | cons p pieces ih =>
    rw [textOf_cons, List.append_assoc, scanFrom_piece doc used h.1, ih h.2, lastDoc_cons,
      Option.or_assoc, List.length_append, Nat.add_assoc]

/-- A gap that is skipped is made of pieces. The induction is on the length of the text, of which
each piece takes some. -/
theorem exists_pieces (n : ℕ) {text : List Char} (hn : text.length ≤ n) {doc : Option String}
    {used : ℕ} {r : Option String × ℕ} (h : scanFrom .between doc 0 used text = .ok r) :
    ∃ pieces rest, text = textOf pieces ++ rest ∧ Fits pieces rest ∧
      r = ((lastDoc pieces).or doc, used + (textOf pieces).length) := by
  induction n generalizing text doc used with
  | zero =>
    obtain rfl := List.length_eq_zero_iff.1 (Nat.le_zero.1 hn)
    exact ⟨[], [], rfl, trivial, by simpa [scanFrom, lastDoc] using h.symm⟩
  | succ n ih =>
    rcases exists_piece h with rfl | ⟨p, rest, rfl, hp⟩
    · exact ⟨[], text, rfl, trivial, rfl⟩
    · rw [scanFrom_piece doc used hp] at h
      have hpos := List.length_pos_iff.2 p.text_ne_nil
      have hlen : rest.length ≤ n := by
        rw [List.length_append] at hn
        omega
      obtain ⟨pieces, rest, rfl, hfits, rfl⟩ := ih hlen h
      refine ⟨p :: pieces, rest, ?_, ⟨hp, hfits⟩, ?_⟩
      · rw [textOf_cons, List.append_assoc]
      · rw [lastDoc_cons, Option.or_assoc, textOf_cons, List.length_append, Nat.add_assoc]

/-- What skipping a gap takes off the text, and the documentation it finds there. -/
theorem scan_ok {text : List Char} {doc : Option String} {gap : ℕ}
    (h : scan text = .ok (doc, gap)) :
    ∃ pieces, text.take gap = textOf pieces ∧ Fits pieces (text.drop gap) ∧
      doc = lastDoc pieces := by
  obtain ⟨pieces, rest, rfl, hfits, hr⟩ := exists_pieces text.length le_rfl h
  obtain ⟨rfl, rfl⟩ : doc = lastDoc pieces ∧ gap = (textOf pieces).length := by simpa using hr
  exact ⟨pieces, by simp, by simpa using hfits, rfl⟩

end CodecDocs.Token.Gap
