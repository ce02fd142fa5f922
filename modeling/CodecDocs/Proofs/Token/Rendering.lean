import CodecDocs.Proofs.Text.Blank
import CodecDocs.Proofs.Token.Lossless

/-! Tokens that are written down and read again. Words, numbers and marks are spelled as they are, a
text goes between quotes with a backslash before what would end it, and one space parts each token
from the next. Reading such a text gives the tokens back.

A space ends every lexeme: no word, number or mark goes on with it, and inside a quoted text it is
a character like any other. So each lexeme can be looked at with an arbitrary text behind it that is
empty or begins with a space, whatever token stands before it. -/

namespace CodecDocs

namespace Token

open Text

/-! ### Spellings -/

inductive Quote where
  | single
  | double
  | backtick
  deriving DecidableEq

namespace Quote

def mark : Quote → Char
  | single => '\x27'
  | double => '"'
  | backtick => '\x60'

/-- A character inside the quotes. Between backticks a dollar sign could begin a substitution. -/
def writeChar (q : Quote) (c : Char) : List Char :=
  if c = '\n' then ['\\', 'n']
  else if c = '\\' ∨ c = q.mark ∨ (q = .backtick ∧ c = '$') then ['\\', c]
  else [c]

def write (q : Quote) (value : String) : List Char :=
  q.mark :: (value.toList.flatMap q.writeChar ++ [q.mark])

end Quote

/-- A token in one of the forms it can be written in. A slash is left out, as what it begins depends
on the token before it. -/
inductive Spelling where
  | word (first : Char) (more : List Char)
      (starts : isAlphabetic first ∨ first = '_' ∨ first = '$')
      (continues : ∀ c ∈ more, isAlphabetic c ∨ isNumeric c ∨ c = '_' ∨ c = '$')
  | string (quote : Quote) (value : String)
  | number (digits : List Char) (digits_ne : digits ≠ [])
      (decimal : ∀ c ∈ digits, '0' ≤ c ∧ c ≤ '9')
  | punct (mark : Punct) (mark_ne : mark ≠ .slash ∧ mark ≠ .divAssign)

namespace Spelling

def text : Spelling → List Char
  | word first more _ _ => first :: more
  | string quote value => quote.write value
  | number digits _ _ => digits
  | punct mark _ => mark.text.toList

/-- The token that is written so; a number is the one that its digits are read as. -/
def kind? : Spelling → Option Kind
  | word first more _ _ => some (.word (String.ofList (first :: more)))
  | string _ value => some (.string value)
  | number digits _ _ => (Numeral.float? digits).map .number
  | punct mark _ => some (.punct mark)

end Spelling

def render (ws : List Spelling) : String := String.ofList (join [' '] (ws.map Spelling.text))

/-! ### What ends a lexeme -/

/-- Nothing stands here, or a space. -/
inductive AtSpace : List Char → Prop
  | nil : AtSpace []
  | cons (rest : List Char) : AtSpace (' ' :: rest)

theorem AtSpace.takeWhile_append {p : Char → Bool} (hp : p ' ' = false) {text rest : List Char}
    (hrest : AtSpace rest) (htext : ∀ c ∈ text, p c) : (text ++ rest).takeWhile p = text := by
  rw [List.takeWhile_append_of_pos htext]
  cases hrest <;> simp [hp]

/-! ### Quoted texts -/

/-- What is open after the first mark. -/
def Quote.frame : Quote → Frame
  | single => .quote '\x27'
  | double => .quote '"'
  | backtick => .template

theorem quotedFrom_writeChar (q : Quote) (c : Char) (read : List Char) (used : ℕ)
    (rest : List Char) :
    quotedFrom [q.frame] read true 0 used (q.writeChar c ++ rest) =
      quotedFrom [q.frame] (c :: read) true 0 (used + (q.writeChar c).length) rest := by
  unfold Quote.writeChar
  split_ifs with hbreak hmark
  · subst hbreak
    cases q <;> simp [Quote.frame, quotedFrom, Frame.turn, Frame.escaped, escape]
  · -- after a backslash each of these characters stands for itself
    have hescape : escape (c :: rest) = .ok ([c], 1) := by
      rcases hmark with rfl | rfl | ⟨-, rfl⟩
      · rfl
      · cases q <;> rfl
      · rfl
    cases q <;> simp [Quote.frame, quotedFrom, Frame.turn, Frame.escaped, hescape]
  · push Not at hmark
    obtain ⟨hslash, hquote, hdollar⟩ := hmark
    cases q <;> simp_all [Quote.frame, Quote.mark, quotedFrom, Frame.turn]

theorem quotedFrom_flatMap (q : Quote) (value read : List Char) (used : ℕ) (rest : List Char) :
    quotedFrom [q.frame] read true 0 used (value.flatMap q.writeChar ++ q.mark :: rest) =
      .ok ((read.reverse ++ value, true), used + (value.flatMap q.writeChar).length + 1) := by
  induction value generalizing read used with
  | nil => cases q <;> simp [Quote.frame, Quote.mark, quotedFrom, Frame.turn]
  | cons c value ih =>
    rw [List.flatMap_cons, List.append_assoc, quotedFrom_writeChar, ih, List.reverse_cons,
      List.append_assoc, List.singleton_append, List.length_append, Nat.add_assoc used]

theorem lexeme_write (previous : Option Kind) (q : Quote) (value : String) (rest : List Char) :
    lexeme previous (q.write value ++ rest) = .ok (.string value, (q.write value).length) := by
  have hquoted : quoted q.frame (value.toList.flatMap q.writeChar ++ q.mark :: rest) =
      .ok (.string value, (q.write value).length) := by
    rw [quoted, quotedFrom_flatMap]
    simp [Quote.write, Nat.add_comm]
  have hdispatch : ∀ text, lexeme previous (q.mark :: text) = quoted q.frame text := by
    intro text
    cases q <;> rfl
  rw [Quote.write, List.cons_append, List.append_assoc, List.singleton_append, hdispatch]
  exact hquoted

/-! ### Numbers -/

theorem extend_isSome {digits : List Char} (h : ∀ c ∈ digits, Numeral.isDigit c) (n : ℕ) :
    (Numeral.extend 10 n digits).isSome := by
  induction digits generalizing n with
  | nil => rfl
  | cons c digits ih =>
    have hdigit : (Numeral.digit? 10 c).isSome :=
      of_isDigit (p := fun c => (Numeral.digit? 10 c).isSome) (by decide)
        (h c List.mem_cons_self)
    obtain ⟨d, hd⟩ := Option.isSome_iff_exists.1 hdigit
    rw [Numeral.extend, hd]
    exact ih (fun c hc => h c (List.mem_cons_of_mem _ hc)) _

theorem unsigned?_isSome {digits : List Char} (hne : digits ≠ [])
    (h : ∀ c ∈ digits, Numeral.isDigit c) : (Numeral.unsigned? false digits).isSome := by
  have hwhole : digits.takeWhile Numeral.isDigit = digits := List.takeWhile_eq_self_iff.2 h
  have hrest : digits.dropWhile Numeral.isDigit = [] := List.dropWhile_eq_nil_iff.2 h
  have hdigits : (Numeral.digits? 10 digits).isSome := by
    rw [Numeral.digits?.eq_2 _ _ hne]
    exact extend_isSome h 0
  obtain ⟨n, hn⟩ := Option.isSome_iff_exists.1 hdigits
  simp [Numeral.unsigned?, hwhole, hrest, hn]

/-- No sign and no name begins with a digit. -/
theorem float?_eq_unsigned? {digits : List Char} (hne : digits ≠ [])
    (h : ∀ c ∈ digits, Numeral.isDigit c) :
    Numeral.float? digits = Numeral.unsigned? false digits := by
  obtain ⟨c, more, rfl⟩ := List.exists_cons_of_ne_nil hne
  obtain ⟨hminus, hplus, hi, hn⟩ : c ≠ '-' ∧ c ≠ '+' ∧ c.toLower ≠ 'i' ∧ c.toLower ≠ 'n' :=
    of_isDigit (p := fun c => c ≠ '-' ∧ c ≠ '+' ∧ c.toLower ≠ 'i' ∧ c.toLower ≠ 'n')
      (by decide) (h c List.mem_cons_self)
  have hname : ∀ name first rest, name.toList = first :: rest → c.toLower ≠ first →
      String.ofList ((c :: more).map Char.toLower) ≠ name := by
    rintro name first rest hname hfirst rfl
    rw [String.toList_ofList] at hname
    exact hfirst (List.cons.inj hname).1
  have hinf := hname "inf" 'i' ['n', 'f'] rfl hi
  have hinfinity := hname "infinity" 'i' ['n', 'f', 'i', 'n', 'i', 't', 'y'] rfl hi
  have hnan := hname "nan" 'n' ['a', 'n'] rfl hn
  unfold Numeral.float?
  split
  next negative size hsign =>
  split at hsign
  · next htext => exact absurd (List.cons.inj htext).1 hminus
  · next htext => exact absurd (List.cons.inj htext).1 hplus
  · obtain ⟨rfl, rfl⟩ := Prod.mk.inj hsign
    dsimp only
    rw [if_neg (not_or.2 ⟨hinf, hinfinity⟩), if_neg hnan]

theorem decimalSpan_digits {digits rest : List Char} (h : ∀ c ∈ digits, Numeral.isDigit c)
    (hrest : AtSpace rest) :
    decimalSpan false false (digits ++ rest) = (digits, digits.length) := by
  induction digits with
  | nil =>
    cases hrest with
    | nil => rfl
    | cons rest =>
      rw [List.nil_append, decimalSpan.eq_def]
      rfl
  | cons c digits ih =>
    rw [List.cons_append, decimalSpan.eq_def]
    simp [h c List.mem_cons_self, ih (fun c hc => h c (List.mem_cons_of_mem _ hc)), keep]

theorem suffixLength_atSpace {rest : List Char} (h : AtSpace rest) : suffixLength rest = 0 := by
  cases h <;> rfl

theorem number_digits {digits rest : List Char} {x : Binary64} (hne : digits ≠ [])
    (h : ∀ c ∈ digits, Numeral.isDigit c) (hrest : AtSpace rest)
    (hx : Numeral.unsigned? false digits = some x) :
    number (digits ++ rest) = .ok (x, digits.length) := by
  -- what stands after the first digit is a digit or a space, and neither marks a radix
  have hradix : ∀ mark tail, digits ++ rest = '0' :: mark :: tail → radix? mark = none := by
    intro mark tail htext
    obtain ⟨c, digits, rfl⟩ := List.exists_cons_of_ne_nil hne
    obtain ⟨-, htext⟩ := List.cons.inj htext
    cases digits with
    | nil =>
      obtain rfl : rest = mark :: tail := htext
      cases hrest
      rfl
    | cons d digits =>
      obtain ⟨rfl, -⟩ := List.cons.inj htext
      exact of_isDigit (p := fun c => radix? c = none) (by decide) (h d (by simp))
  unfold number
  dsimp only
  split
  · next radix hmark =>
    split at hmark
    · next htext => simp [hradix _ _ htext] at hmark
    · cases hmark
  · simp [decimalSpan_digits h hrest, suffixLength_atSpace hrest, hx]

theorem lexeme_digits (previous : Option Kind) {digits rest : List Char} {x : Binary64}
    (hne : digits ≠ []) (h : ∀ c ∈ digits, Numeral.isDigit c) (hrest : AtSpace rest)
    (hx : Numeral.unsigned? false digits = some x) :
    lexeme previous (digits ++ rest) = .ok (.number x, digits.length) := by
  have hnumber := number_digits hne h hrest hx
  obtain ⟨c, more, rfl⟩ := List.exists_cons_of_ne_nil hne
  have hc := h c List.mem_cons_self
  obtain ⟨hquote, hbacktick⟩ : ¬ (c = '"' ∨ c = '\x27') ∧ c ≠ '\x60' :=
    of_isDigit (p := fun c => ¬ (c = '"' ∨ c = '\x27') ∧ c ≠ '\x60') (by decide) hc
  rw [List.cons_append] at hnumber ⊢
  rw [lexeme, if_neg hquote, if_neg hbacktick, if_pos (.inl hc), hnumber]
  rfl

end Token

/-! ### Marks -/

namespace Punct

open Token

theorem text_not_isBlank (mark : Punct) : ∀ c ∈ mark.text.toList, Text.isBlank c = false := by
  have hall : mark.text.toList.all (!Text.isBlank ·) := by cases mark <;> rfl
  simpa using hall

/-- No mark has a character that begins a lexeme of another kind; its slash is looked at apart. -/
theorem text_plain (mark : Punct) : ∀ c ∈ mark.text.toList, c ≠ '"' ∧ c ≠ '\x27' ∧ c ≠ '\x60' ∧
    Numeral.isDigit c = false ∧ startsWord c = false := by
  have hall : mark.text.toList.all fun c => c != '"' && c != '\x27' && c != '\x60' &&
      !Numeral.isDigit c && !startsWord c := by
    cases mark <;> rfl
  simpa [and_assoc] using hall

theorem slash_notMem (mark : Punct) (h : mark ≠ .slash ∧ mark ≠ .divAssign) :
    '/' ∉ mark.text.toList := by
  revert h
  cases mark <;> decide

theorem exists_first (mark : Punct) : ∃ c more, mark.text.toList = c :: more :=
  List.exists_cons_of_ne_nil (by cases mark <;> decide)

/-- A text without white space begins another one whatever space follows that. -/
theorem isPrefixOf_append {front : List Char} (hfront : ∀ c ∈ front, Text.isBlank c = false)
    (text : List Char) {rest : List Char} (hrest : AtSpace rest) :
    front.isPrefixOf (text ++ rest) = front.isPrefixOf text := by
  induction front generalizing text with
  | nil => simp
  | cons c front ih =>
    have hc : c ≠ ' ' := by
      rintro rfl
      exact absurd (hfront ' ' List.mem_cons_self) (by decide)
    cases text with
    | nil => cases hrest <;> simp [List.isPrefixOf, hc]
    | cons d text =>
      have htail := ih (fun c hc => hfront c (List.mem_cons_of_mem _ hc)) text
      simp [List.isPrefixOf, htail]

theorem mem_all (mark : Punct) : mark ∈ all := by cases mark <;> decide

/-- No longer mark begins the text of a mark with a space behind it. -/
theorem start?_append (mark : Punct) {rest : List Char} (hrest : AtSpace rest) :
    start? (mark.text.toList ++ rest) = some mark := by
  have halone : ∀ mark ∈ all, start? mark.text.toList = some mark := by decide +kernel
  have hspace : start? (mark.text.toList ++ rest) = start? mark.text.toList := by
    unfold start?
    congr 1
    funext p
    exact isPrefixOf_append p.text_not_isBlank _ hrest
  rw [hspace, halone mark mark.mem_all]

end Punct

namespace Token

open Text

theorem lexeme_mark (previous : Option Kind) {mark : Punct}
    (h : mark ≠ .slash ∧ mark ≠ .divAssign) {rest : List Char} (hrest : AtSpace rest) :
    lexeme previous (mark.text.toList ++ rest) = .ok (.punct mark, mark.text.toList.length) := by
  have hstart := mark.start?_append hrest
  have hslash := mark.slash_notMem h
  have hplain := mark.text_plain
  rw [String.length_toList]
  obtain ⟨c, more, htext⟩ := mark.exists_first
  rw [htext] at hstart hslash hplain ⊢
  rw [List.cons_append] at hstart ⊢
  obtain ⟨hdouble, hsingle, hbacktick, hdigit, hword⟩ := hplain c List.mem_cons_self
  have hc : c ≠ '/' := fun heq => hslash (by simp [heq])
  have hnext : ¬ (more ++ rest).head?.any Numeral.isDigit := by
    cases more with
    | nil =>
      have hspace : Numeral.isDigit ' ' = false := rfl
      cases hrest <;> simp [hspace]
    | cons d more => simp [(hplain d (by simp)).2.2.2.1]
  rw [lexeme, if_neg (not_or.2 ⟨hdouble, hsingle⟩), if_neg hbacktick,
    if_neg (not_or.2 ⟨by simp [hdigit], fun h => hnext h.2⟩), if_neg (by simp [hword]),
    if_neg (fun h => hc h.1), hstart]

/-! ### Words -/

theorem startsWord_iff {c : Char} : startsWord c ↔ isAlphabetic c ∨ c = '_' ∨ c = '$' := by
  simp [startsWord, or_assoc]

theorem continuesWord_iff {c : Char} :
    continuesWord c ↔ isAlphabetic c ∨ isNumeric c ∨ c = '_' ∨ c = '$' := by
  simp [continuesWord, or_assoc]

theorem ne_of_startsWord {c d : Char} (hc : startsWord c) (hd : startsWord d = false) : c ≠ d := by
  rintro rfl
  exact absurd hc (by simp [hd])

theorem lexeme_word (previous : Option Kind) {first : Char} {more rest : List Char}
    (hfirst : startsWord first) (hmore : ∀ c ∈ more, continuesWord c) (hrest : AtSpace rest) :
    lexeme previous (first :: more ++ rest) =
      .ok (.word (String.ofList (first :: more)), (first :: more).length) := by
  have hword : (first :: more ++ rest).takeWhile continuesWord = first :: more :=
    hrest.takeWhile_append (by decide)
      (List.forall_mem_cons.2 ⟨continuesWord_of_startsWord hfirst, hmore⟩)
  have hdigit : Numeral.isDigit first = false := by
    by_contra h
    exact ne_of_startsWord hfirst (not_startsWord_of_isDigit (by simpa using h)) rfl
  have hdouble := ne_of_startsWord (d := '"') hfirst (by decide)
  have hsingle := ne_of_startsWord (d := '\x27') hfirst (by decide)
  have hbacktick := ne_of_startsWord (d := '\x60') hfirst (by decide)
  have hdot := ne_of_startsWord (d := '.') hfirst (by decide)
  rw [List.cons_append] at hword ⊢
  rw [lexeme, if_neg (not_or.2 ⟨hdouble, hsingle⟩), if_neg hbacktick,
    if_neg (by simp [hdigit, hdot]), if_pos hfirst, hword]

/-! ### Any token -/

namespace Spelling

/-- What is written down begins with neither white space nor a slash, so no gap reaches into it. -/
theorem exists_first (w : Spelling) :
    ∃ c more, w.text = c :: more ∧ isBlank c = false ∧ c ≠ '/' := by
  cases w with
  | word first more starts continues =>
    have hfirst : startsWord first := startsWord_iff.2 starts
    exact ⟨first, more, rfl, isBlank_eq_false (by decide +kernel) hfirst,
      ne_of_startsWord hfirst (by decide)⟩
  | string quote value =>
    exact ⟨quote.mark, _, rfl, by cases quote <;> decide, by cases quote <;> decide⟩
  | number digits digits_ne decimal =>
    obtain ⟨c, more, rfl⟩ := List.exists_cons_of_ne_nil digits_ne
    obtain ⟨hblank, hslash⟩ := of_isDigit (p := fun c => isBlank c = false ∧ c ≠ '/')
      (by decide) (decide_eq_true (decimal c List.mem_cons_self))
    exact ⟨c, more, rfl, hblank, hslash⟩
  | punct mark mark_ne =>
    obtain ⟨c, more, htext⟩ := mark.exists_first
    have hc : c ∈ mark.text.toList := by simp [htext]
    refine ⟨c, more, htext, mark.text_not_isBlank c hc, ?_⟩
    rintro rfl
    exact mark.slash_notMem mark_ne hc

theorem lexeme_text (w : Spelling) (previous : Option Kind) {rest : List Char}
    (hrest : AtSpace rest) :
    ∃ kind, w.kind? = some kind ∧
      lexeme previous (w.text ++ rest) = .ok (kind, w.text.length) := by
  cases w with
  | word first more starts continues =>
    exact ⟨_, rfl, lexeme_word previous (startsWord_iff.2 starts)
      (fun c hc => continuesWord_iff.2 (continues c hc)) hrest⟩
  | string quote value => exact ⟨_, rfl, lexeme_write previous quote value rest⟩
  | number digits digits_ne decimal =>
    have hdigits : ∀ c ∈ digits, Numeral.isDigit c := fun c hc => decide_eq_true (decimal c hc)
    obtain ⟨x, hx⟩ := Option.isSome_iff_exists.1 (unsigned?_isSome digits_ne hdigits)
    refine ⟨.number x, ?_, lexeme_digits previous digits_ne hdigits hrest hx⟩
    rw [kind?, float?_eq_unsigned? digits_ne hdigits, hx]
    rfl
  | punct mark mark_ne => exact ⟨_, rfl, lexeme_mark previous mark_ne hrest⟩

end Spelling

/-! ### Whole texts -/

/-- Whatever token stands before it, the text has the tokens that are written so, and the end. -/
def ReadsAs (rounds : ℕ) (text : List Char) (ws : List Spelling) : Prop :=
  ∀ previous place, ∃ tokens, lexFrom rounds previous place text = .ok tokens ∧
    tokens.map (fun t => some t.kind) = ws.map Spelling.kind? ++ [some .eof]

/-- White space takes a gap on, and the next token ends it. -/
theorem scan_text {gap : List Char} (hgap : ∀ c ∈ gap, isBlank c) (w : Spelling)
    (rest : List Char) : Gap.scan (gap ++ (w.text ++ rest)) = .ok (none, gap.length) := by
  obtain ⟨c, more, htext, hblank, hslash⟩ := w.exists_first
  have hscan : ∀ used, Gap.scanFrom .between none 0 used (gap ++ (w.text ++ rest)) =
      .ok (none, used + gap.length) := by
    induction gap with
    | nil => simp [htext, Gap.scanFrom, hblank, hslash]
    | cons d gap ih =>
      intro used
      have hd : isBlank d := hgap d List.mem_cons_self
      rw [List.cons_append, Gap.scanFrom, if_pos hd, ih fun c hc => hgap c (.tail d hc),
        List.length_cons, Nat.add_assoc, Nat.add_comm 1]
  rw [Gap.scan, hscan 0, Nat.zero_add]

theorem ReadsAs.nil (rounds : ℕ) : ReadsAs (rounds + 1) [] [] := fun _ _ => ⟨_, rfl, rfl⟩

/-- One round reads one token. -/
theorem ReadsAs.cons (gap : List Char) (hgap : ∀ c ∈ gap, isBlank c) (w : Spelling)
    {rounds : ℕ} {rest : List Char} (hrest : AtSpace rest) {ws : List Spelling}
    (h : ReadsAs rounds rest ws) : ReadsAs (rounds + 1) (gap ++ (w.text ++ rest)) (w :: ws) := by
  intro previous place
  obtain ⟨kind, hkind, hlexeme⟩ := w.lexeme_text previous hrest
  have hdrop : (gap ++ (w.text ++ rest)).drop gap.length = w.text ++ rest := List.drop_left
  have hmore : w.text ++ rest ≠ [] := by
    obtain ⟨c, more, htext, -⟩ := w.exists_first
    simp [htext]
  have hround := lexFrom_token rounds place (scan_text hgap w rest) (by rwa [hdrop])
    (by rwa [hdrop])
  rw [hdrop, List.drop_left] at hround
  obtain ⟨tokens, htokens, hkinds⟩ := h (some kind) _
  rw [htokens] at hround
  refine ⟨_, hround, ?_⟩
  rw [List.map_cons, hkinds, List.map_cons, hkind, List.cons_append]

/-- Spellings with a space before each of them. -/
def spaced (ws : List Spelling) : List Char := ws.flatMap fun w => ' ' :: w.text

theorem spaced_cons (w : Spelling) (ws : List Spelling) :
    spaced (w :: ws) = [' '] ++ (w.text ++ spaced ws) := rfl

theorem atSpace_spaced (ws : List Spelling) : AtSpace (spaced ws) := by
  cases ws with
  | nil => exact .nil
  | cons w ws => exact .cons _

theorem length_le_spaced (ws : List Spelling) : ws.length ≤ (spaced ws).length := by
  induction ws with
  | nil => simp
  | cons w ws ih =>
    simp only [spaced_cons, List.length_append, List.length_cons, List.length_nil]
    omega

theorem join_text (w : Spelling) (ws : List Spelling) :
    join [' '] ((w :: ws).map Spelling.text) = w.text ++ spaced ws := by
  induction ws generalizing w with
  | nil => simp [join, spaced]
  | cons v ws ih =>
    rw [List.map_cons, List.map_cons, join, ← List.map_cons, ih v, spaced_cons, List.append_assoc]
    simp

theorem readsAs_spaced (ws : List Spelling) {rounds : ℕ} (hrounds : ws.length < rounds) :
    ReadsAs rounds (spaced ws) ws := by
  induction ws generalizing rounds with
  | nil =>
    obtain ⟨rounds, rfl⟩ := Nat.exists_eq_succ_of_ne_zero (Nat.ne_zero_of_lt hrounds)
    exact .nil rounds
  | cons w ws ih =>
    obtain ⟨rounds, rfl⟩ := Nat.exists_eq_succ_of_ne_zero (Nat.ne_zero_of_lt hrounds)
    have hspace : isBlank ' ' := by decide
    exact .cons [' '] (by simp [hspace]) w (atSpace_spaced ws) (ih (by simpa using hrounds))

/-- Reading what was written gives back the tokens, each text and each number with its value, and
the end after them. -/
theorem lex_render (ws : List Spelling) :
    ∃ tokens, lex (render ws) = .ok tokens ∧
      tokens.map (fun t => some t.kind) = ws.map Spelling.kind? ++ [some .eof] := by
  cases ws with
  | nil => exact ReadsAs.nil 0 none .first
  | cons w ws =>
    have hrounds : ws.length < (w.text ++ spaced ws).length := by
      obtain ⟨c, more, htext, -⟩ := w.exists_first
      have := length_le_spaced ws
      rw [htext, List.length_append, List.length_cons]
      omega
    rw [lex, render, String.toList_ofList, join_text]
    exact ReadsAs.cons [] (by simp) w (atSpace_spaced ws) (readsAs_spaced ws hrounds) _ _

example : render [.word 'a' [] (by decide) (by simp), .punct .assign (by decide),
      .string .backtick "$\x60\n'"] = "a = \x60\\$\\\x60\\n'\x60" ∧
    (lex "a = \x60\\$\\\x60\\n'\x60").map (·.map Token.kind) =
      .ok [.word "a", .punct .assign, .string "$\x60\n'", .eof] := by
  decide +kernel

end Token

end CodecDocs
