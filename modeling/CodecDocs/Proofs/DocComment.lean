import CodecDocs.DocComment
import CodecDocs.Proofs.Text.Blank

/-! Nothing that a documentation text says is lost when it is read. Up to white space its lines go
to the paragraphs and the tags one after the other, each line to one of them. -/

namespace CodecDocs

open Text

/-- What a tag says in the text, without white space. -/
def DocTag.said (t : DocTag) : List Char := '@' :: t.name.toList ++ strip t.value.toList

namespace DocComment

/-- What a comment says, without white space: summary, description and tags in their order. -/
def said (c : DocComment) : List Char :=
  strip (c.summary.getD "").toList ++ strip (c.description.getD "").toList ++
    c.tags.flatMap DocTag.said

/-! ### Lines -/

theorem isBlank_of_isAlpha {c : Char} (h : c.isAlpha = true) : isBlank c = false :=
  isBlank_eq_false (by decide) h

theorem isBlank_of_isTagChar {c : Char} (h : isTagChar c = true) : isBlank c = false :=
  isBlank_eq_false (by decide +kernel) h

/-- A line that begins a tag says its name and its value behind an `@`. -/
theorem strip_tagLine {line name value : List Char} (h : tagLine? line = some (name, value)) :
    strip line = '@' :: name ++ strip value := by
  unfold tagLine? at h
  split at h
  · next c rest =>
    split_ifs at h with hc
    obtain ⟨rfl, rfl⟩ : c :: rest.takeWhile isTagChar = name ∧
        trim (rest.dropWhile isTagChar) = value := by simpa using h
    have hname : strip ('@' :: c :: rest.takeWhile isTagChar) =
        '@' :: c :: rest.takeWhile isTagChar := by
      refine strip_of_not_blank (List.forall_mem_cons.mpr ⟨by decide, ?_⟩)
      refine List.forall_mem_cons.mpr ⟨isBlank_of_isAlpha hc, fun d hd => ?_⟩
      exact isBlank_of_isTagChar (List.mem_takeWhile_imp hd)
    calc strip ('@' :: c :: rest)
        = strip ('@' :: c :: rest.takeWhile isTagChar ++ rest.dropWhile isTagChar) := by
          rw [List.cons_append, List.cons_append, List.takeWhile_append_dropWhile]
      _ = '@' :: c :: rest.takeWhile isTagChar ++ strip (trim (rest.dropWhile isTagChar)) := by
          rw [strip_append, hname, strip_trim]
  · cases h

/-! ### Paragraphs -/

/-- Every line that says something is in one of the runs, in order. -/
theorem said_paragraphsFrom (run lines : List (List Char)) :
    (paragraphsFrom run lines).flatMap (·.flatMap strip) =
      run.reverse.flatMap strip ++ lines.flatMap strip := by
  induction lines generalizing run with
  | nil =>
    rw [paragraphsFrom]
    split_ifs with hrun
    · simp [List.isEmpty_iff.mp hrun]
    · simp
  | cons line lines ih =>
    rw [paragraphsFrom]
    split_ifs with hline hrun
    · simp [List.isEmpty_iff.mp hline, List.isEmpty_iff.mp hrun, ih]
    · simp [List.isEmpty_iff.mp hline, ih]
    · simp [ih]

theorem said_paragraphs (lines : List (List Char)) :
    ((paragraphsFrom [] lines).map (join [' '])).flatMap strip = lines.flatMap strip := by
  have hjoin : ∀ run, strip (join [' '] run) = run.flatMap strip := strip_join (by decide)
  rw [List.flatMap_map]
  simp only [hjoin]
  rw [said_paragraphsFrom, List.reverse_nil, List.flatMap_nil, List.nil_append]

/-! ### Tags -/

theorem said_tagOf (name : List Char) (read : List (List Char)) :
    (tagOf name read).said = '@' :: name ++ read.reverse.flatMap strip := by
  have hjoin : ∀ lines, strip (join ['\n'] lines) = lines.flatMap strip := strip_join (by decide)
  have hfilter : ∀ lines : List (List Char),
      (lines.filter (· ≠ [])).flatMap strip = lines.flatMap strip := by
    intro lines
    induction lines with
    | nil => rfl
    | cons line lines ih =>
      rw [List.filter_cons]
      split_ifs with hline
      · rw [List.flatMap_cons, List.flatMap_cons, ih]
      · have hempty : line = [] := by simpa using hline
        rw [ih, List.flatMap_cons, hempty, strip_nil, List.nil_append]
  simp only [DocTag.said, tagOf, String.toList_ofList, hjoin, hfilter]

/-- Each line after the beginning of a tag belongs to it or begins the next one. -/
theorem said_tagsFrom (name : List Char) (read lines : List (List Char)) :
    (tagsFrom name read lines).flatMap DocTag.said =
      '@' :: name ++ read.reverse.flatMap strip ++ lines.flatMap strip := by
  induction lines generalizing name read with
  | nil => simp [tagsFrom, said_tagOf]
  | cons line lines ih =>
    rw [tagsFrom]
    split
    · next next value hline =>
      rw [List.flatMap_cons, ih, said_tagOf, List.flatMap_cons, strip_tagLine hline]
      simp
    · rw [ih]
      simp

theorem said_tagsOf {lines : List (List Char)}
    (h : ∀ line ∈ lines.head?, (tagLine? line).isSome) :
    (tagsOf lines).flatMap DocTag.said = lines.flatMap strip := by
  cases lines with
  | nil => rfl
  | cons line lines =>
    obtain ⟨⟨name, value⟩, hline⟩ := Option.isSome_iff_exists.mp (h line rfl)
    simp only [tagsOf, hline]
    rw [said_tagsFrom, List.flatMap_cons, strip_tagLine hline]
    simp

/-! ### Comments -/

/-- Before the first tag the lines make up paragraphs, and from there on tags. -/
theorem said_parts (text : List Char) :
    ((paragraphsFrom [] (((lines text).map trim).takeWhile fun line => (tagLine? line).isNone)).map
        (join [' '])).flatMap strip ++
      (tagsOf (((lines text).map trim).dropWhile fun line => (tagLine? line).isNone)).flatMap
        DocTag.said = strip text := by
  have hfirst : ∀ line ∈ (((lines text).map trim).dropWhile fun line =>
      (tagLine? line).isNone).head?, (tagLine? line).isSome := by
    intro line hline
    have hnot := List.head?_dropWhile_not (fun line => (tagLine? line).isNone)
      ((lines text).map trim)
    rw [hline] at hnot
    simpa using hnot
  rw [said_paragraphs, said_tagsOf hfirst, ← List.flatMap_append, List.takeWhile_append_dropWhile,
    List.flatMap_map]
  simp only [strip_trim, flatMap_strip_lines]

/-- A comment that is read says what its text says. -/
theorem said_of_parse {text : String} {c : DocComment} (h : parse text = some c) :
    c.said = strip text.toList := by
  have hjoin : ∀ rest, strip (join ['\n', '\n'] rest) = rest.flatMap strip := strip_join (by decide)
  rw [← said_parts]
  simp only [parse] at h
  split at h
  · cases h
  · next hparagraphs _ =>
    cases h
    simp [said, hparagraphs]
  · next hparagraphs =>
    cases h
    simp [said, hparagraphs]
  · next hparagraphs =>
    cases h
    simp [said, hparagraphs, hjoin]

theorem strip_of_parse_none {text : String} (h : parse text = none) : strip text.toList = [] := by
  rw [← said_parts]
  simp only [parse] at h
  split at h
  · next hparagraphs htags => simp [hparagraphs, htags]
  all_goals cases h

theorem paragraphsFrom_replicate (n : ℕ) : paragraphsFrom [] (List.replicate n []) = [] := by
  induction n with
  | zero => rfl
  | succ n ih => simpa [List.replicate_succ, paragraphsFrom] using ih

/-- Of white space nothing but empty lines is left. -/
theorem parse_of_strip {text : String} (h : strip text.toList = []) : parse text = none := by
  have hlines : (lines text.toList).map trim =
      List.replicate ((lines text.toList).map trim).length [] := by
    rw [← flatMap_strip_lines, List.flatMap_eq_nil_iff] at h
    exact List.eq_replicate_of_mem
      (List.forall_mem_map.mpr fun line hline => trim_eq_nil (h line hline))
  rw [parse, hlines]
  simp [paragraphsFrom_replicate, tagLine?, tagsOf]

/-- A text is no comment exactly if it is all white space, and a text that is one is read without
loss: up to white space it is what the comment says. -/
theorem parse_keeps_text (text : String) :
    (parse text = none ↔ strip text.toList = []) ∧
      ∀ c, parse text = some c → strip text.toList = c.said :=
  ⟨⟨strip_of_parse_none, parse_of_strip⟩, fun _ h => (said_of_parse h).symm⟩

/-- Three paragraphs, a tag over several lines with an empty one among them and a tag without a
value. -/
theorem parse_keeps_text_tagged :
    parse " The id.\n\n\tNever\u00a0reused.\r\n \nNo key.\n@eg [\n\n  @1\n]\n@see-also" =
        some ⟨some "The id.", some "Never\u00a0reused.\n\nNo key.",
          [⟨"eg", "[\n@1\n]"⟩, ⟨"see-also", ""⟩]⟩ ∧
      strip " The id.\n\n\tNever\u00a0reused.\r\n \nNo key.\n@eg [\n\n  @1\n]\n@see-also".toList =
        "Theid.Neverreused.Nokey.@eg[@1]@see-also".toList := by
  have hread : parse
      " The id.\n\n\tNever\u00a0reused.\r\n \nNo key.\n@eg [\n\n  @1\n]\n@see-also" =
      some ⟨some "The id.", some "Never\u00a0reused.\n\nNo key.",
        [⟨"eg", "[\n@1\n]"⟩, ⟨"see-also", ""⟩]⟩ := by decide +kernel
  refine ⟨hread, ?_⟩
  rw [(parse_keeps_text _).2 _ hread]
  decide +kernel

end DocComment

end CodecDocs
