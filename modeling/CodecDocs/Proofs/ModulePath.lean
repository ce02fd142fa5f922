import CodecDocs.ModulePath
import Mathlib.Data.List.Induction

/-! Laws of module paths. Normalization leaves a path in normal form as it is, and the files that a
specifier may mean are given in normal form. Only below the root directory this fails: an index file
is looked for there after two slashes. -/

namespace CodecDocs

/-! ### Pieces of a text -/

namespace Text

theorem split_cons (separator c : Char) (text : List Char) :
    split separator (c :: text) =
      if c = separator then [] :: split separator text
      else (split separator text).modifyHead (c :: ·) := by
  have hne : split separator text ≠ [] := by
    cases text with
    | nil => exact List.cons_ne_nil _ _
    | cons d text =>
      rw [split]
      split_ifs
      · exact List.cons_ne_nil _ _
      · split <;> exact List.cons_ne_nil _ _
  rw [split]
  split_ifs
  · rfl
  · obtain ⟨piece, pieces, heq⟩ := List.exists_cons_of_ne_nil hne
    rw [heq, List.modifyHead_cons]

theorem split_eq (separator : Char) (text : List Char) :
    split separator text = text.splitOn separator := by
  rw [List.splitOn_eq_splitOnP]
  induction text with
  | nil => rfl
  | cons c text ih =>
    rw [split_cons, ih, List.splitOnP_cons_eq_if_modifyHead]
    simp only [beq_iff_eq]

theorem join_eq (separator : List Char) (pieces : List (List Char)) :
    join separator pieces = separator.intercalate pieces := by
  induction pieces with
  | nil => rfl
  | cons piece pieces ih =>
    cases pieces with
    | nil => simp [join]
    | cons next pieces => rw [join, ih, List.intercalate_cons_cons]; simp

/-- No piece contains the separator. -/
theorem not_mem_of_mem_split {separator : Char} {text piece : List Char}
    (h : piece ∈ split separator text) : separator ∉ piece := by
  induction text generalizing piece with
  | nil => simp [List.mem_singleton.mp h]
  | cons c text ih =>
    rw [split_cons] at h
    split_ifs at h with hc
    · rcases List.mem_cons.mp h with rfl | h
      · exact List.not_mem_nil
      · exact ih h
    · cases heq : split separator text with
      | nil => simp [heq] at h
      | cons first rest =>
        rw [heq, List.modifyHead_cons] at h
        rw [heq] at ih
        rcases List.mem_cons.mp h with rfl | h
        · rw [List.mem_cons, not_or]
          exact ⟨Ne.symm hc, ih List.mem_cons_self⟩
        · exact ih (List.mem_cons_of_mem _ h)

/-- Pieces without the separator are read back. -/
theorem split_join {separator : Char} {pieces : List (List Char)} (hne : pieces ≠ [])
    (h : ∀ p ∈ pieces, separator ∉ p) : split separator (join [separator] pieces) = pieces := by
  rw [split_eq, join_eq, List.splitOn_intercalate separator h hne]

end Text

namespace ModulePath

/-! ### Normal forms -/

/-- A piece of a path that is not passed over. -/
def IsComponent (p : List Char) : Prop := (p ≠ [] ∧ p ≠ ['.']) ∧ '/' ∉ p

/-- The components of a path in normal form. -/
structure Normal (absolute : Bool) (parts : List (List Char)) : Prop where
  named : ∀ p ∈ parts, IsComponent p
  rooted : absolute = true → parent ∉ parts
  leading : parts.Pairwise fun p q => q = parent → p = parent

theorem normal_nil (absolute : Bool) : Normal absolute [] :=
  ⟨by simp, fun _ => List.not_mem_nil, .nil⟩

theorem normal_concat {absolute : Bool} {parts : List (List Char)} {c : List Char} :
    Normal absolute (parts ++ [c]) ↔ Normal absolute parts ∧ IsComponent c ∧
      (c = parent → absolute = false ∧ ∀ p ∈ parts, p = parent) := by
  constructor
  · rintro ⟨hnamed, hrooted, hleading⟩
    obtain ⟨hparts, -, hlast⟩ := List.pairwise_append.mp hleading
    refine ⟨⟨fun p hp => hnamed p (List.mem_append_left _ hp), fun ha hp =>
      hrooted ha (List.mem_append_left _ hp), hparts⟩, hnamed c (by simp), fun hc => ⟨?_, ?_⟩⟩
    · cases absolute with
      | false => rfl
      | true => exact absurd (by simp [hc]) (hrooted rfl)
    · exact fun p hp => hlast p hp c List.mem_cons_self hc
  · rintro ⟨⟨hnamed, hrooted, hleading⟩, hc, hparent⟩
    refine ⟨fun p hp => ?_, fun ha hp => ?_, ?_⟩
    · rcases List.mem_append.mp hp with hp | hp
      · exact hnamed p hp
      · exact List.mem_singleton.mp hp ▸ hc
    · rcases List.mem_append.mp hp with hp | hp
      · exact hrooted ha hp
      · have := (hparent (List.mem_singleton.mp hp).symm).1
        simp [ha] at this
    · refine List.pairwise_append.mpr
        ⟨hleading, List.pairwise_singleton _ _, fun p hp q hq he => ?_⟩
      rw [List.mem_singleton.mp hq] at he
      exact (hparent he).2 p hp

theorem push_of_ne {c : List Char} (h : c ≠ parent) (absolute : Bool) (path : List (List Char)) :
    push absolute path c = c :: path := by simp [push, h]

/-- Adding a component keeps a normal path normal. -/
theorem normal_push {absolute : Bool} {path : List (List Char)} {c : List Char}
    (h : Normal absolute path.reverse) (hc : IsComponent c) :
    Normal absolute (push absolute path c).reverse := by
  by_cases he : c = parent
  · subst he
    cases path with
    | nil =>
      cases absolute with
      | true => exact h
      | false => exact normal_concat.mpr ⟨h, hc, fun _ => ⟨rfl, by simp⟩⟩
    | cons last rest =>
      rw [List.reverse_cons] at h
      obtain ⟨hrest, -, hparent⟩ := normal_concat.mp h
      by_cases hl : last = parent
      · -- a relative path of steps to the parent only
        obtain ⟨rfl, hall⟩ := hparent hl
        have heq : push false (last :: rest) parent = parent :: last :: rest := by simp [push, hl]
        rw [heq, List.reverse_cons, List.reverse_cons, normal_concat]
        refine ⟨h, hc, fun _ => ⟨rfl, fun p hp => ?_⟩⟩
        rcases List.mem_append.mp hp with hp | hp
        · exact hall p hp
        · rw [List.mem_singleton.mp hp, hl]
      · have heq : push absolute (last :: rest) parent = rest := by simp [push, hl]
        rwa [heq]
  · rw [push_of_ne he, List.reverse_cons, normal_concat]
    exact ⟨h, hc, fun hp => absurd hp he⟩

theorem isComponent_of_mem {path p : List Char} (h : p ∈ components path) : IsComponent p := by
  rw [components, List.mem_filter, decide_eq_true_iff] at h
  exact ⟨h.2, Text.not_mem_of_mem_split h.1⟩

/-- Normalization ends in a normal form. -/
theorem normal_normal (path : List Char) : Normal (isAbsolute path) (normal path) := by
  have hfold : ∀ (parts acc : List (List Char)), (∀ p ∈ parts, IsComponent p) →
      Normal (isAbsolute path) acc.reverse →
      Normal (isAbsolute path) (parts.foldl (push (isAbsolute path)) acc).reverse := by
    intro parts
    induction parts with
    | nil => exact fun acc _ hacc => hacc
    | cons p parts ih =>
      intro acc hparts hacc
      rw [List.forall_mem_cons] at hparts
      exact ih _ hparts.2 (normal_push hacc hparts.1)
  exact hfold _ [] (fun p hp => isComponent_of_mem hp) (normal_nil _)

/-! ### Paths in normal form -/

theorem foldl_push_of_normal {absolute : Bool} {parts : List (List Char)}
    (h : Normal absolute parts) : parts.foldl (push absolute) [] = parts.reverse := by
  induction parts using List.reverseRecOn with
  | nil => rfl
  | append_singleton parts c ih =>
    obtain ⟨hparts, -, hparent⟩ := normal_concat.mp h
    rw [List.foldl_append, ih hparts, List.reverse_append]
    by_cases hc : c = parent
    · obtain ⟨rfl, hall⟩ := hparent hc
      cases hr : parts.reverse with
      | nil => simp [push, hc]
      | cons last rest =>
        have hlast : last = parent := hall last (List.mem_reverse.mp (hr ▸ List.mem_cons_self))
        simp [push, hc, hlast]
    · exact push_of_ne hc absolute parts.reverse

theorem components_slash (path : List Char) : components ('/' :: path) = components path := by
  simp [components, Text.split_cons]

theorem components_join {parts : List (List Char)} (h : ∀ p ∈ parts, IsComponent p) :
    components (Text.join ['/'] parts) = parts := by
  cases parts with
  | nil => rfl
  | cons first rest =>
    rw [components, Text.split_join (List.cons_ne_nil _ _) fun p hp => (h p hp).2]
    exact List.filter_eq_self.mpr fun p hp => decide_eq_true (h p hp).1

theorem components_write {absolute : Bool} {parts : List (List Char)}
    (h : ∀ p ∈ parts, IsComponent p) : components (write absolute parts) = parts := by
  cases absolute with
  | false => exact components_join h
  | true => exact (components_slash _).trans (components_join h)

theorem isAbsolute_write {absolute : Bool} {parts : List (List Char)}
    (h : ∀ p ∈ parts, IsComponent p) : isAbsolute (write absolute parts) = absolute := by
  cases absolute with
  | true => rfl
  | false =>
    match parts, h with
    | [], _ => rfl
    | p :: rest, h =>
      obtain ⟨⟨hne, -⟩, hslash⟩ := h p List.mem_cons_self
      obtain ⟨c, p, rfl⟩ := List.exists_cons_of_ne_nil hne
      have hc : c ≠ '/' := fun hc => hslash (hc ▸ List.mem_cons_self)
      cases rest <;> simp [isAbsolute, write, Text.join, hc]

theorem normal_write {absolute : Bool} {parts : List (List Char)} (h : Normal absolute parts) :
    normal (write absolute parts) = parts := by
  rw [normal, components_write h.named, isAbsolute_write h.named, foldl_push_of_normal h,
    List.reverse_reverse]

/-- A path in normal form is its own module's id. -/
theorem moduleId_write {absolute : Bool} {parts : List (List Char)} (h : Normal absolute parts) :
    moduleId (String.ofList (write absolute parts)) = String.ofList (write absolute parts) := by
  rw [moduleId, String.toList_ofList, isAbsolute_write h.named, normal_write h]

@[simp] theorem moduleId_moduleId (path : String) : moduleId (moduleId path) = moduleId path :=
  moduleId_write (normal_normal path.toList)

/-! ### Candidates -/

/-- What stands before the last component of a path. -/
def front (absolute : Bool) (init : List (List Char)) : List Char :=
  (if absolute then ['/'] else []) ++ init.flatMap (· ++ ['/'])

theorem join_concat (init : List (List Char)) (last : List Char) :
    Text.join ['/'] (init ++ [last]) = init.flatMap (· ++ ['/']) ++ last := by
  induction init with
  | nil => simp [Text.join]
  | cons p init ih =>
    cases init with
    | nil => simp [Text.join]
    | cons q init => simpa [Text.join] using ih

theorem write_concat (absolute : Bool) (init : List (List Char)) (last : List Char) :
    write absolute (init ++ [last]) = front absolute init ++ last := by
  rw [write, join_concat, front, List.append_assoc]

theorem eq_slash_of_front {absolute : Bool} {init : List (List Char)} {before : List Char}
    {c : Char} (h : front absolute init = before ++ [c]) : c = '/' := by
  have hlast : (front absolute init).getLast? = some c := by rw [h, List.getLast?_concat]
  induction init using List.reverseRecOn with
  | nil =>
    cases absolute with
    | false => simp [front] at hlast
    | true => simpa [front, eq_comm] using hlast
  | append_singleton init last _ => simpa [front, ← List.append_assoc, eq_comm] using hlast

/-- A name that is too long to be a step completes a normal path. -/
theorem moduleId_front {absolute : Bool} {init : List (List Char)} {name : List Char}
    (h : Normal absolute init) (hs : '/' ∉ name) (hl : 2 < name.length) :
    moduleId (String.ofList (front absolute init ++ name)) =
      String.ofList (front absolute init ++ name) := by
  have hshort : ∀ short : List Char, short.length ≤ 2 → name ≠ short := by
    rintro _ hle rfl
    omega
  rw [← write_concat]
  refine moduleId_write (normal_concat.mpr ⟨h, ⟨⟨hshort _ ?_, hshort _ ?_⟩, hs⟩, fun hp => ?_⟩)
  · decide
  · decide
  · exact absurd hp (hshort _ (by decide))

/-- Where a normal path ends in a text without slashes, this stands in its last component. -/
theorem exists_stem {absolute : Bool} {init : List (List Char)} {last stem ending : List Char}
    (he : '/' ∉ ending) (h : front absolute init ++ last = stem ++ ending) :
    ∃ name, stem = front absolute init ++ name ∧ last = name ++ ending := by
  rcases List.append_eq_append_iff.mp h with ⟨name, hstem, hlast⟩ | ⟨more, hfront, hending⟩
  · exact ⟨name, hstem, hlast⟩
  · cases more using List.reverseRecOn with
    | nil => exact ⟨[], by simpa using hfront.symm, by simpa using hending.symm⟩
    | append_singleton more c =>
      -- the front would end inside of the ending
      rw [← List.append_assoc] at hfront
      obtain rfl := eq_slash_of_front hfront
      exact absurd (by simp [hending]) he

/-- The path that a specifier names in a module. -/
def target (id specifier : String) : String :=
  moduleId (String.ofList (append (directory id.toList) specifier.toList))

theorem toList_target (id specifier : String) :
    (target id specifier).toList =
      write (isAbsolute (append (directory id.toList) specifier.toList))
        (normal (append (directory id.toList) specifier.toList)) := by
  simp only [target, moduleId, String.toList_ofList]

/-- How the target of a specifier is put together, unless it is the root directory. -/
theorem exists_front {absolute : Bool} {parts : List (List Char)} (h : Normal absolute parts)
    (hroot : write absolute parts ≠ ['/']) :
    (∃ init last, Normal absolute init ∧ '/' ∉ last ∧
      write absolute parts = front absolute init ++ last) ∧
    ∃ rooted, Normal rooted parts ∧ write absolute parts ++ ['/'] = front rooted parts := by
  cases parts using List.reverseRecOn with
  | nil =>
    cases absolute with
    | true => exact absurd rfl hroot
    | false => exact ⟨⟨[], [], h, by simp, rfl⟩, true, normal_nil _, rfl⟩
  | append_singleton init last =>
    obtain ⟨hinit, hlast, -⟩ := normal_concat.mp h
    refine ⟨⟨init, last, hinit, hlast.2, write_concat absolute init last⟩, absolute, h, ?_⟩
    simp [write_concat, front]

theorem candidate_cases {id specifier c : String} (hc : c ∈ candidates id specifier) :
    let base := (target id specifier).toList
    c.toList = base ∨
    (∃ ending ∈ [".ts", ".tsx", ".d.ts", ".js"], c.toList = base ++ ending.toList) ∨
    (∃ stem, base = stem ++ ".js".toList ∧
      ∃ ending ∈ [".ts", ".tsx"], c.toList = stem ++ ending.toList) ∨
    ∃ name ∈ ["index.ts", "index.tsx", "index.js"], c.toList = base ++ ['/'] ++ name.toList := by
  intro base
  have hbase : base = write (isAbsolute (append (directory id.toList) specifier.toList))
      (normal (append (directory id.toList) specifier.toList)) := toList_target id specifier
  rw [candidates, ← hbase] at hc
  obtain ⟨text, ht, rfl⟩ := List.mem_map.mp hc
  rw [String.toList_ofList]
  rcases List.mem_append.mp ht with ht | ht
  · rcases List.mem_append.mp ht with ht | ht
    · rcases List.mem_append.mp ht with ht | ht
      · exact .inl (List.mem_singleton.mp ht)
      · obtain ⟨ending, he, rfl⟩ := List.mem_map.mp ht
        exact .inr (.inl ⟨ending, he, rfl⟩)
    · refine .inr (.inr (.inl ?_))
      unfold stripEnding? at ht
      split_ifs at ht with hends
      · obtain ⟨stem, hstem⟩ := List.isSuffixOf_iff_suffix.mp hends
        refine ⟨stem, hstem.symm, ?_⟩
        have htake : base.take (base.length - ".js".toList.length) = stem := by
          rw [← hstem, List.length_append, Nat.add_sub_cancel, List.take_left]
        simp only [htake, List.mem_cons, List.not_mem_nil, or_false] at ht
        rcases ht with rfl | rfl
        · exact ⟨".ts", by simp, rfl⟩
        · exact ⟨".tsx", by simp, rfl⟩
      · cases ht
  · obtain ⟨name, hname, rfl⟩ := List.mem_map.mp ht
    exact .inr (.inr (.inr ⟨name, hname, rfl⟩))

/-- The files that a specifier may mean are given by their ids. -/
theorem moduleId_candidate {id specifier c : String} (hc : c ∈ candidates id specifier)
    (hroot : target id specifier ≠ "/") : moduleId c = c := by
  have hendings : ∀ e ∈ [".ts", ".tsx", ".d.ts", ".js"], '/' ∉ e.toList ∧ 2 < e.toList.length := by
    decide
  have hnames : ∀ name ∈ ["index.ts", "index.tsx", "index.js"],
      '/' ∉ name.toList ∧ 2 < name.toList.length := by decide
  obtain ⟨absolute, parts, hnormal, hbase⟩ : ∃ absolute parts, Normal absolute parts ∧
      (target id specifier).toList = write absolute parts :=
    ⟨_, _, normal_normal _, String.toList_ofList⟩
  have hslash : write absolute parts ≠ ['/'] :=
    fun h => hroot (String.toList_inj.mp (hbase.trans h))
  obtain ⟨⟨init, last, hinit, hlast, hfront⟩, rooted, hparts, hindex⟩ := exists_front hnormal hslash
  have hnamed : ∀ name e : List Char, '/' ∉ name → '/' ∉ e ∧ 2 < e.length →
      c.toList = front absolute init ++ name ++ e → moduleId c = c := by
    rintro name e hname ⟨hs, hl⟩ heq
    rw [← String.ofList_toList (s := c), heq, List.append_assoc]
    refine moduleId_front hinit ?_ ?_
    · rw [List.mem_append, not_or]
      exact ⟨hname, hs⟩
    · rw [List.length_append]
      omega
  rcases candidate_cases hc with heq | ⟨e, he, heq⟩ | ⟨stem, hstem, e, he, heq⟩ | ⟨name, hname, heq⟩
  · rw [String.toList_inj.mp heq, target, moduleId_moduleId]
  · exact hnamed last e.toList hlast (hendings e he) (by rw [heq, hbase, hfront])
  · obtain ⟨name, rfl, rfl⟩ := exists_stem (by decide) (hfront.symm.trans (hbase.symm.trans hstem))
    rw [List.mem_append, not_or] at hlast
    have he : e ∈ [".ts", ".tsx", ".d.ts", ".js"] := List.mem_append_left _ he
    exact hnamed name e.toList hlast.1 (hendings e he) heq
  · obtain ⟨hs, hl⟩ := hnames name hname
    rw [← String.ofList_toList (s := c), heq, hbase, hindex]
    exact moduleId_front hparts hs hl

example : "//index.ts" ∈ candidates "/a.ts" "." ∧ moduleId "//index.ts" = "/index.ts" := by decide

end ModulePath

end CodecDocs
