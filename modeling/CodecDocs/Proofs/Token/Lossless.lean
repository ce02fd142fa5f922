import CodecDocs.Proofs.Token.Gap
import CodecDocs.Proofs.Token.Lexeme
import CodecDocs.Proofs.Token.Place

/-! Nothing of a source text is lost when it is cut into tokens. Gaps and lexemes follow each other
from the first character to the last, every span is the place of its lexeme, and every range of
bytes that is read out of the source falls between characters. -/

namespace CodecDocs.Token

open Text Gap

/-- The place of a text that stands after `before`. -/
def spanOf (before text : List Char) : Span :=
  ⟨bytes before, bytes (before ++ text), 1 + before.count '\n',
    1 + (Place.sinceBreak before).length⟩

theorem spanTo_after (before text : List Char) :
    (Place.first.after before).spanTo ((Place.first.after before).after text) =
      spanOf before text := by
  rw [← Place.after_append, Place.first_after, Place.first_after]
  rfl

/-- Cuts of a text that stands after `before`: a gap and a lexeme in turn, and a gap before the end.
`first` says that no token has been read yet. -/
inductive Cut : Bool → List Char → List Char → List Token → Prop
  | ending (first : Bool) (before : List Char) {pieces : List Piece} (fits : Fits pieces []) :
    Cut first before (textOf pieces)
      [⟨.eof, spanOf (before ++ textOf pieces) [], none, true⟩]
  | token (first : Bool) (before : List Char) {pieces : List Piece} {kind : Kind}
      {lexeme rest : List Char} {tokens : List Token} (fits : Fits pieces (lexeme ++ rest))
      (kind_ne : kind ≠ .eof) (lexeme_ne : lexeme ≠ [])
      (later : Cut false (before ++ textOf pieces ++ lexeme) rest tokens) :
    Cut first before (textOf pieces ++ lexeme ++ rest)
      (⟨kind, spanOf (before ++ textOf pieces) lexeme, lastDoc pieces,
        first || (textOf pieces).contains '\n'⟩ :: tokens)

theorem ok_of_map {ε α β : Type} {f : α → β} {x : Except ε α} {b : β} (h : x.map f = .ok b) :
    ∃ a, x = .ok a ∧ f a = b := by
  cases x with
  | error e => cases h
  | ok a => exact ⟨a, rfl, Except.ok.inj h⟩

theorem map_cons_append {ε α : Type} (x : Except ε (List α)) (read : List α) (a : α) :
    (x.map (a :: ·)).map (read ++ ·) = x.map (read ++ [a] ++ ·) := by
  cases x <;> simp [Except.map]

/-- A round that reads a token leaves the text after it to the rounds that follow. -/
theorem lexFrom_token (rounds : ℕ) {previous : Option Kind} (place : Place) {text : List Char}
    {doc : Option String} {gap : ℕ} {kind : Kind} {used : ℕ}
    (skipped : Gap.scan text = .ok (doc, gap)) (more : text.drop gap ≠ [])
    (taken : lexeme previous (text.drop gap) = .ok (kind, used)) :
    lexFrom (rounds + 1) previous place text =
      (lexFrom rounds (some kind) ((place.after (text.take gap)).after ((text.drop gap).take used))
        ((text.drop gap).drop used)).map
        (⟨kind, (place.after (text.take gap)).spanTo
          ((place.after (text.take gap)).after ((text.drop gap).take used)), doc,
          previous.isNone || (text.take gap).contains '\n'⟩ :: ·) := by
  have hempty : (text.drop gap).isEmpty = false := by simpa using more
  rw [lexFrom, skipped]
  simp only [hempty, Bool.false_eq_true, if_false, taken]

/-- One round skips a gap and then finds the end of the text, or a token and a text after it. -/
theorem lexFrom_succ_ok {rounds : ℕ} {previous : Option Kind} {before text : List Char}
    {tokens : List Token}
    (h : lexFrom (rounds + 1) previous (Place.first.after before) text = .ok tokens) :
    ∃ pieces rest, text = textOf pieces ++ rest ∧ Fits pieces rest ∧
      ((rest = [] ∧ tokens = [⟨.eof, spanOf (before ++ textOf pieces) [], none, true⟩]) ∨
        ∃ kind lexeme after later, rest = lexeme ++ after ∧ kind ≠ .eof ∧ lexeme ≠ [] ∧
          lexFrom rounds (some kind) (Place.first.after (before ++ textOf pieces ++ lexeme)) after =
            .ok later ∧
          tokens = ⟨kind, spanOf (before ++ textOf pieces) lexeme, lastDoc pieces,
            previous.isNone || (textOf pieces).contains '\n'⟩ :: later) := by
  rw [lexFrom] at h
  split at h
  · cases h
  next doc gap hgap =>
  obtain ⟨pieces, htake, hfits, rfl⟩ := scan_ok hgap
  have htext : text = textOf pieces ++ text.drop gap := by rw [← htake, List.take_append_drop]
  refine ⟨pieces, text.drop gap, htext, hfits, ?_⟩
  dsimp only at h
  rw [htake, ← Place.after_append] at h
  split_ifs at h with hempty
  · refine .inl ⟨List.isEmpty_iff.1 hempty, ?_⟩
    rw [← spanTo_after]
    exact (Except.ok.inj h).symm
  · split at h
    · cases h
    next kind used hlexeme =>
    have hne : text.drop gap ≠ [] := by simpa using hempty
    obtain ⟨hkind, hpos, -⟩ := lexeme_takes hne hlexeme
    have hused : (text.drop gap).take used ≠ [] := fun htaken =>
      (List.take_eq_nil_iff.1 htaken).elim hpos.ne' hne
    rw [spanTo_after, ← Place.after_append] at h
    obtain ⟨later, hlater, rfl⟩ := ok_of_map h
    exact .inr ⟨kind, _, _, later, (List.take_append_drop used _).symm, hkind, hused, hlater, rfl⟩

theorem lexFrom_cut {rounds : ℕ} {previous : Option Kind} {before text : List Char}
    {tokens : List Token}
    (h : lexFrom rounds previous (Place.first.after before) text = .ok tokens) :
    Cut previous.isNone before text tokens := by
  induction rounds generalizing previous before text tokens with
  | zero => cases h
  | succ rounds ih =>
    obtain ⟨pieces, rest, rfl, hfits, ⟨rfl, rfl⟩ | hmore⟩ := lexFrom_succ_ok h
    · rw [List.append_nil]
      exact .ending _ _ hfits
    · obtain ⟨kind, lexeme, after, later, rfl, hkind, hlexeme, hlater, rfl⟩ := hmore
      rw [← List.append_assoc]
      exact .token _ _ hfits hkind hlexeme (ih hlater)

/-! ### What a cut says about its tokens -/

/-- The byte at which the gap after these tokens begins; `start` when there are none. -/
def gapStart (start : ℕ) (read : List Token) : ℕ :=
  (read.getLast?.map fun t => t.span.stop).getD start

theorem gapStart_cons (start : ℕ) (t : Token) (read : List Token) :
    gapStart start (t :: read) = gapStart t.span.stop read := by
  unfold gapStart
  rw [List.getLast?_cons]
  cases read.getLast? <;> rfl

namespace Cut

variable {first : Bool} {before text : List Char} {tokens : List Token}

theorem eof_last (h : Cut first before text tokens) :
    ∃ front last, tokens = front ++ [last] ∧ (∀ t ∈ front, t.kind ≠ .eof) ∧ last.kind = .eof ∧
      last.span.start = bytes (before ++ text) ∧ last.span.stop = bytes (before ++ text) := by
  induction h with
  | ending first before fits => exact ⟨[], _, rfl, by simp, rfl, rfl, by simp [spanOf]⟩
  | token first before fits kind_ne lexeme_ne later ih =>
    obtain ⟨front, last, rfl, hfront, hlast, hstart, hstop⟩ := ih
    refine ⟨_ :: front, last, rfl, List.forall_mem_cons.2 ⟨kind_ne, hfront⟩, hlast, ?_, ?_⟩
    · rw [hstart]
      simp
    · rw [hstop]
      simp

theorem spans (h : Cut first before text tokens) :
    ∀ t ∈ tokens, ∃ start lexeme rest, before ++ text = start ++ lexeme ++ rest ∧
      t.span = spanOf start lexeme ∧ (t.kind ≠ .eof → t.span.start < t.span.stop) := by
  induction h with
  | ending first before fits =>
    intro t ht
    obtain rfl := List.mem_singleton.1 ht
    exact ⟨_, [], [], by simp, rfl, fun h => absurd rfl h⟩
  | @token first before pieces kind lexeme rest tokens fits kind_ne lexeme_ne later ih =>
    refine List.forall_mem_cons.2 ⟨?_, fun t ht => ?_⟩
    · refine ⟨before ++ textOf pieces, lexeme, rest, by simp, rfl, fun _ => ?_⟩
      have hpos := bytes_pos lexeme_ne
      show bytes (before ++ textOf pieces) < bytes (before ++ textOf pieces ++ lexeme)
      rw [bytes_append _ lexeme]
      omega
    · obtain ⟨start, lexeme, rest, heq, hspan, hne⟩ := ih t ht
      exact ⟨start, lexeme, rest, by rw [← heq]; simp, hspan, hne⟩

/-- Spans lie after what is read already, and each ends before the next begins. -/
theorem ordered (h : Cut first before text tokens) :
    (∀ t ∈ tokens, bytes before ≤ t.span.start) ∧
      tokens.Pairwise fun t u => t.span.stop ≤ u.span.start := by
  induction h with
  | ending first before fits => simp [spanOf]
  | token first before fits kind_ne lexeme_ne later ih =>
    refine ⟨List.forall_mem_cons.2 ⟨by simp [spanOf], fun t ht => ?_⟩,
      List.pairwise_cons.2 ⟨fun t ht => ih.1 t ht, ih.2⟩⟩
    have hstart := ih.1 t ht
    rw [bytes_append, bytes_append] at hstart
    omega

theorem gaps (h : Cut first before text tokens) {read later : List Token} {t : Token}
    (ht : tokens = read ++ t :: later) :
    ∃ start pieces rest, before ++ text = start ++ textOf pieces ++ rest ∧
      bytes start = gapStart (bytes before) read ∧ bytes (start ++ textOf pieces) = t.span.start ∧
      Fits pieces rest ∧
      (t.kind ≠ .eof →
        (t.newline ↔ (first ∧ read = []) ∨ '\n' ∈ textOf pieces) ∧ t.doc = lastDoc pieces) := by
  induction h generalizing read with
  | @ending first before pieces fits =>
    cases read with
    | nil =>
      obtain ⟨rfl, -⟩ := List.cons.inj ht
      exact ⟨before, pieces, [], by simp, rfl, rfl, fits, fun h => absurd rfl h⟩
    | cons u read => simp at ht
  | @token first before pieces kind lexeme rest tokens fits kind_ne lexeme_ne _ ih =>
    cases read with
    | nil =>
      obtain ⟨rfl, rfl⟩ := List.cons.inj ht
      exact ⟨before, pieces, lexeme ++ rest, by simp, rfl, rfl, fits, fun _ => ⟨by simp, rfl⟩⟩
    | cons u read =>
      obtain ⟨rfl, htail⟩ := List.cons.inj ht
      obtain ⟨start, gap, after, heq, hstart, hspan, hfits, hsays⟩ := ih htail
      refine ⟨start, gap, after, by rw [← heq]; simp, ?_, hspan, hfits, by simpa using hsays⟩
      rw [hstart, gapStart_cons]
      rfl

end Cut

/-- The tokens tell everything about the source but what its gaps say. -/
structure Lossless (source : String) (tokens : List Token) : Prop where
  /-- Only the last token marks the end, where it takes no characters. -/
  eof_last : ∃ front last, tokens = front ++ [last] ∧ (∀ t ∈ front, t.kind ≠ .eof) ∧
    last.kind = .eof ∧ last.span.start = source.utf8ByteSize ∧ last.span.stop = source.utf8ByteSize
  /-- Spans fall between characters and give the line and the column of their first one. -/
  spans : ∀ t ∈ tokens, ∃ before text after, source.toList = before ++ text ++ after ∧
    t.span = spanOf before text ∧ (t.kind ≠ .eof → t.span.start < t.span.stop)
  ordered : tokens.Pairwise fun t u => t.span.stop ≤ u.span.start
  /-- White space and comments stand between the tokens. -/
  gaps : ∀ read t later, tokens = read ++ t :: later →
    ∃ before pieces after, source.toList = before ++ textOf pieces ++ after ∧
      bytes before = gapStart 0 read ∧ bytes (before ++ textOf pieces) = t.span.start ∧
      Fits pieces after ∧
      (t.kind ≠ .eof →
        (t.newline ↔ read = [] ∨ '\n' ∈ textOf pieces) ∧ t.doc = lastDoc pieces)

theorem lossless_of_cut {source : String} {tokens : List Token}
    (h : Cut true [] source.toList tokens) : Lossless source tokens where
  eof_last := by
    have hsize : source.utf8ByteSize = bytes source.toList := by
      rw [← utf8ByteSize_ofList, String.ofList_toList]
    rw [hsize]
    exact h.eof_last
  spans := h.spans
  ordered := h.ordered.2
  gaps := fun read t later ht => by simpa using h.gaps ht

/-! ### Ranges that are read out of the source -/

/-- The states of reading a source: the kind of the last token, what has been read and what is
left. -/
inductive Reaches (source : List Char) : Option Kind → List Char → List Char → Prop
  | start : Reaches source none [] source
  | next {previous : Option Kind} {before text : List Char} {doc : Option String} {gap : ℕ}
      {kind : Kind} {used : ℕ} (reached : Reaches source previous before text)
      (skipped : Gap.scan text = .ok (doc, gap)) (more : text.drop gap ≠ [])
      (taken : lexeme previous (text.drop gap) = .ok (kind, used)) :
    Reaches source (some kind) (before ++ text.take gap ++ (text.drop gap).take used)
      ((text.drop gap).drop used)

namespace Reaches

variable {source before text : List Char} {previous : Option Kind}

theorem eq_append (h : Reaches source previous before text) : source = before ++ text := by
  induction h with
  | start => rfl
  | next reached skipped more taken ih =>
    rw [List.append_assoc, List.take_append_drop, List.append_assoc, List.take_append_drop, ← ih]

/-- Reading goes on from each of its states, with rounds enough for what is left. -/
theorem lexFrom_eq (h : Reaches source previous before text) :
    ∃ rounds read, text.length < rounds ∧
      lexFrom (source.length + 1) none .first source =
        (lexFrom rounds previous (Place.first.after before) text).map (read ++ ·) := by
  induction h with
  | start =>
    refine ⟨source.length + 1, [], by omega, ?_⟩
    have hfirst : Place.first.after [] = .first := rfl
    rw [hfirst]
    cases lexFrom (source.length + 1) none .first source <;> rfl
  | @next previous before text doc gap kind used reached skipped more taken ih =>
    obtain ⟨rounds, read, hrounds, hread⟩ := ih
    obtain ⟨-, hpos, hused⟩ := lexeme_takes more taken
    obtain ⟨rounds, rfl⟩ : ∃ n, rounds = n + 1 := ⟨rounds - 1, by omega⟩
    have hlength : ((text.drop gap).drop used).length < rounds := by
      rw [List.length_drop] at hused
      rw [List.length_drop, List.length_drop]
      omega
    rw [lexFrom_token _ _ skipped more taken, ← Place.after_append, ← Place.after_append,
      map_cons_append] at hread
    exact ⟨rounds, _, hlength, hread⟩

end Reaches

/-- The ranges that are read out of a source in one of its states fall between characters. -/
structure InRange (source : List Char) (previous : Option Kind) (before text : List Char) :
    Prop where
  rest : slice source (bytes before) (bytes source) = some text
  /-- The body of a documentation block, between its three first and its two last characters; it is
  cleaned there. -/
  doc : ∀ pieces body after, text = textOf (pieces ++ [.block ('*' :: body)]) ++ after →
    Fits (pieces ++ [.block ('*' :: body)]) after →
    Gap.scan text = Gap.scanFrom .between (some (cleanDoc body)) 0
      (textOf (pieces ++ [.block ('*' :: body)])).length after ∧
    slice source (bytes before + bytes (textOf pieces) + 3)
      (bytes before + bytes (textOf pieces) + 3 + bytes body) = some body
  /-- The text in which a punctuation mark is looked for. -/
  mark : ∀ doc gap, Gap.scan text = .ok (doc, gap) →
    slice source ((Place.first.after before).after (text.take gap)).offset (bytes source) =
      some (text.drop gap)
  /-- The characters of a number that cannot be read. -/
  number : ∀ doc gap said used, Gap.scan text = .ok (doc, gap) →
    lexeme previous (text.drop gap) = .error (.invalidNumber said, used) →
    slice source ((Place.first.after before).after (text.take gap)).offset
      (((Place.first.after before).after (text.take gap)).after
        ((text.drop gap).take used)).offset = some said.toList

theorem slice_rest {source before text : List Char} (h : source = before ++ text) :
    slice source (bytes before) (bytes source) = some text := by
  have hslice := slice_append before text []
  rwa [List.append_nil, ← bytes_append, ← h] at hslice

theorem Reaches.inRange {source before text : List Char} {previous : Option Kind}
    (h : Reaches source previous before text) : InRange source previous before text where
  rest := slice_rest h.eq_append
  doc pieces body after htext hfits := by
    refine ⟨?_, ?_⟩
    · have hdoc : lastDoc (pieces ++ [.block ('*' :: body)]) = some (cleanDoc body) := by
        simp [lastDoc, Piece.doc?]
      rw [htext, Gap.scan, scanFrom_textOf hfits, hdoc, Nat.zero_add]
      rfl
    have hslice :=
      slice_append (before ++ textOf pieces ++ ['/', '*', '*']) body (['*', '/'] ++ after)
    have hsource : source =
        before ++ textOf pieces ++ ['/', '*', '*'] ++ body ++ (['*', '/'] ++ after) := by
      rw [h.eq_append, htext]
      simp [Piece.text]
    have hopening : bytes (before ++ textOf pieces ++ ['/', '*', '*']) =
        bytes before + bytes (textOf pieces) + 3 := by
      rw [bytes_append, bytes_append]
      rfl
    rwa [← hsource, hopening] at hslice
  mark doc gap _ := by
    rw [← Place.after_append, Place.offset_first_after]
    refine slice_rest ?_
    rw [List.append_assoc, List.take_append_drop, ← h.eq_append]
  number doc gap said used _ hlexeme := by
    have hslice := slice_append (before ++ text.take gap) ((text.drop gap).take used)
      ((text.drop gap).drop used)
    rw [lexeme_invalid hlexeme, ← Place.after_append, ← Place.after_append,
      Place.offset_first_after, Place.offset_first_after]
    rwa [List.append_assoc _ _ ((text.drop gap).drop used), List.take_append_drop,
      List.append_assoc, List.take_append_drop, ← h.eq_append, ← bytes_append] at hslice

/-- Nothing is lost when a source is cut into tokens, and in no state of the reading is a range
taken that does not fall between characters of the source. -/
theorem lex_lossless (source : String) :
    (∀ tokens, lex source = .ok tokens → Lossless source tokens) ∧
      ∀ previous before text, Reaches source.toList previous before text →
        InRange source.toList previous before text ∧
        ∃ rounds read, text.length < rounds ∧
          lex source =
            (lexFrom rounds previous (Place.first.after before) text).map (read ++ ·) :=
  ⟨fun _ h => lossless_of_cut (@lexFrom_cut _ none [] _ _ h),
    fun _ _ _ h => ⟨h.inRange, h.lexFrom_eq⟩⟩

/-- A documented letter of two bytes, a comment and a mark on the second line. -/
theorem lex_lossless_documented :
    Lossless "/** D */é // c\n ;"
        [⟨.word "é", ⟨8, 10, 1, 9⟩, some "D", true⟩,
          ⟨.punct .semicolon, ⟨17, 18, 2, 2⟩, none, true⟩,
          ⟨.eof, ⟨18, 18, 2, 3⟩, none, true⟩] ∧
      InRange "/** D */é // c\n ;".toList (some (.word "é")) "/** D */é".toList
        " // c\n ;".toList :=
  ⟨(lex_lossless _).1 _ (by decide +kernel),
    ((lex_lossless _).2 _ _ _
      (@Reaches.next _ none [] _ (some "D") 8 (.word "é") 1 .start (by decide +kernel)
        (by decide +kernel) (by decide +kernel))).1⟩

end CodecDocs.Token
