import CodecDocs.Script.Basic
import Mathlib.Data.List.Basic
import Mathlib.Data.List.Induction

/-! Brackets that belong together. Reading a text from left to right keeps the brackets that are
still open, the innermost first; a closing bracket must be the partner of that one. -/

namespace CodecDocs

/-- The bracket that closes a group opened by this one. -/
def Punct.partner? : Punct → Option Punct
  | .openParen => some .closeParen
  | .openBracket => some .closeBracket
  | .openBrace => some .closeBrace
  | _ => none

theorem Punct.eq_of_opens {mark : Punct} (h : mark.opens = true) :
    mark = .openParen ∨ mark = .openBracket ∨ mark = .openBrace := by
  revert h
  cases mark <;> decide

theorem Punct.opens_of_closes {mark : Punct} (h : mark.closes = true) : mark.opens = false := by
  revert h
  cases mark <;> decide

namespace Script

open Token (Kind)

/-- The open brackets after one more token, unless it closes a group that none of them opened. -/
def nextOpen (opened : List Punct) : Kind → Option (List Punct)
  | .punct mark =>
    if mark.opens then some (mark :: opened)
    else if mark.closes then
      match opened with
      | [] => none
      | inner :: outer => if inner.partner? = some mark then some outer else none
    else some opened
  | _ => some opened

/-- The brackets that are open after a text. -/
def openAfter (opened : List Punct) (text : List Kind) : Option (List Punct) :=
  text.foldlM nextOpen opened

/-- Every bracket of the text has its partner in it. -/
def Paired (text : List Kind) : Prop := openAfter [] text = some []

instance (text : List Kind) : Decidable (Paired text) := inferInstanceAs (Decidable (_ = _))

@[simp] theorem openAfter_nil (opened : List Punct) : openAfter opened [] = some opened := rfl

theorem openAfter_cons (opened : List Punct) (k : Kind) (text : List Kind) :
    openAfter opened (k :: text) = (nextOpen opened k).bind fun o => openAfter o text := rfl

theorem openAfter_append (opened : List Punct) (text more : List Kind) :
    openAfter opened (text ++ more) = (openAfter opened text).bind fun o => openAfter o more :=
  List.foldlM_append

theorem nextOpen_opens {mark : Punct} (h : mark.opens = true) (opened : List Punct) :
    nextOpen opened (.punct mark) = some (mark :: opened) := if_pos h

/-- A closing bracket takes the innermost open one away, if it is its partner. -/
theorem nextOpen_closes {mark : Punct} (hopens : mark.opens = false) (hcloses : mark.closes = true)
    {opened opened' : List Punct} (h : nextOpen opened (.punct mark) = some opened') :
    ∃ inner, opened = inner :: opened' ∧ inner.partner? = some mark := by
  simp only [nextOpen, hopens, hcloses, Bool.false_eq_true, if_false, if_true] at h
  cases opened with
  | nil => cases h
  | cons inner outer =>
    dsimp only at h
    split_ifs at h with hpartner
    obtain rfl := Option.some.inj h
    exact ⟨inner, rfl, hpartner⟩

theorem nextOpen_partner {mark inner : Punct} (hcloses : mark.closes = true)
    (h : inner.partner? = some mark) (outer : List Punct) :
    nextOpen (inner :: outer) (.punct mark) = some outer := by
  simp [nextOpen, hcloses, Punct.opens_of_closes hcloses, h]

theorem nextOpen_other {k : Kind}
    (h : ∀ mark, k = .punct mark → mark.opens = false ∧ mark.closes = false)
    (opened : List Punct) : nextOpen opened k = some opened := by
  cases k with
  | punct mark => simp [nextOpen, h mark rfl]
  | _ => rfl

/-- Every closing bracket of the text is the partner of the innermost bracket open before it. -/
def ClosesFit (text : List Kind) : Prop :=
  ∀ before mark after, text = before ++ .punct mark :: after → mark.closes = true →
    ∃ inner outer, openAfter [] before = some (inner :: outer) ∧ inner.partner? = some mark

theorem closesFit_of_openAfter {text : List Kind} {opened : List Punct}
    (h : openAfter [] text = some opened) : ClosesFit text := by
  rintro before mark after rfl hcloses
  rw [openAfter_append, Option.bind_eq_some_iff] at h
  obtain ⟨middle, hmiddle, hafter⟩ := h
  rw [openAfter_cons, Option.bind_eq_some_iff] at hafter
  obtain ⟨outer, houter, -⟩ := hafter
  obtain ⟨inner, rfl, hpartner⟩ :=
    nextOpen_closes (Punct.opens_of_closes hcloses) hcloses houter
  exact ⟨inner, outer, hmiddle, hpartner⟩

/-- Only a closing bracket that does not fit keeps a text from being read to its end. -/
theorem ClosesFit.exists_openAfter {text : List Kind} (h : ClosesFit text) :
    ∃ opened, openAfter [] text = some opened := by
  induction text using List.reverseRecOn with
  | nil => exact ⟨[], rfl⟩
  | append_singleton text k ih =>
    obtain ⟨opened, hopened⟩ := ih fun before mark after heq hcloses =>
      h before mark (after ++ [k]) (by rw [heq]; simp) hcloses
    have hlast : openAfter [] (text ++ [k]) = nextOpen opened k := by
      rw [openAfter_append, hopened, Option.bind_some, openAfter_cons]
      simp
    rw [hlast]
    by_cases hbracket : ∃ mark, k = .punct mark ∧ (mark.opens = true ∨ mark.closes = true)
    · obtain ⟨mark, rfl, hopens | hcloses⟩ := hbracket
      · exact ⟨_, nextOpen_opens hopens opened⟩
      · obtain ⟨inner, outer, hinner, hpartner⟩ := h text mark [] rfl hcloses
        obtain rfl := Option.some.inj (hopened.symm.trans hinner)
        exact ⟨outer, nextOpen_partner hcloses hpartner outer⟩
    · refine ⟨opened, nextOpen_other (fun mark hk => ?_) opened⟩
      simpa using fun hmark => hbracket ⟨mark, hk, hmark⟩

end Script

end CodecDocs
