import CodecDocs.Text.Lines
import CodecDocs.Token.Lexer
import Mathlib.Algebra.BigOperators.Group.List.Basic
import Mathlib.Algebra.Ring.Nat
import Mathlib.Data.List.Induction

/-! Places in a text. The place after a text counts its bytes, its line breaks and the characters
since the last of them, and the bytes between two places are the characters between them. -/

namespace CodecDocs

namespace Text

/-- The length of a text in UTF-8. -/
def bytes (text : List Char) : ℕ := (text.map Char.utf8Size).sum

@[simp] theorem bytes_nil : bytes [] = 0 := rfl

@[simp] theorem bytes_cons (c : Char) (text : List Char) :
    bytes (c :: text) = c.utf8Size + bytes text := rfl

@[simp] theorem bytes_append (text more : List Char) :
    bytes (text ++ more) = bytes text + bytes more := by simp [bytes]

theorem bytes_pos {text : List Char} (h : text ≠ []) : 0 < bytes text := by
  cases text with
  | nil => exact absurd rfl h
  | cons c text =>
    have := c.utf8Size_pos
    rw [bytes_cons]
    omega

theorem utf8ByteSize_ofList (text : List Char) :
    (String.ofList text).utf8ByteSize = bytes text := by
  induction text with
  | nil => rfl
  | cons c text ih =>
    have hcons : String.ofList (c :: text) = String.singleton c ++ String.ofList text := by
      rw [String.singleton_eq_ofList, ← String.ofList_append, List.singleton_append]
    rw [hcons, String.utf8ByteSize_append, String.utf8ByteSize_singleton, ih, bytes_cons]

/-! ### Slices -/

theorem dropBytes_append (text rest : List Char) :
    dropBytes (text ++ rest) (bytes text) = some rest := by
  induction text with
  | nil => simp [dropBytes]
  | cons c text ih =>
    have hc := c.utf8Size_pos
    obtain ⟨n, hn⟩ : ∃ n, bytes (c :: text) = n + 1 := ⟨c.utf8Size - 1 + bytes text, by simp; omega⟩
    have hle : c.utf8Size ≤ n + 1 := by rw [← hn, bytes_cons]; omega
    have hsub : n + 1 - c.utf8Size = bytes text := by rw [← hn, bytes_cons]; omega
    rw [hn, List.cons_append, dropBytes, if_pos hle, hsub, ih]

theorem takeBytes_append (text rest : List Char) :
    takeBytes (text ++ rest) (bytes text) = some text := by
  induction text with
  | nil => simp [takeBytes]
  | cons c text ih =>
    have hc := c.utf8Size_pos
    obtain ⟨n, hn⟩ : ∃ n, bytes (c :: text) = n + 1 := ⟨c.utf8Size - 1 + bytes text, by simp; omega⟩
    have hle : c.utf8Size ≤ n + 1 := by rw [← hn, bytes_cons]; omega
    have hsub : n + 1 - c.utf8Size = bytes text := by rw [← hn, bytes_cons]; omega
    rw [hn, List.cons_append, takeBytes, if_pos hle, hsub, ih, Option.map_some]

/-- The bytes between two places of a text are the characters between them. -/
theorem slice_append (before text after : List Char) :
    slice (before ++ text ++ after) (bytes before) (bytes before + bytes text) = some text := by
  have hlt : ¬ bytes before + bytes text < bytes before := by omega
  rw [slice, if_neg hlt, List.append_assoc, dropBytes_append, Option.bind_some,
    Nat.add_sub_cancel_left, takeBytes_append]

end Text

namespace Token.Place

open Text

theorem after_append (p : Place) (text more : List Char) :
    p.after (text ++ more) = (p.after text).after more := List.foldl_append

/-- The characters since the last line break. -/
def sinceBreak (text : List Char) : List Char := text.reverse.takeWhile (· ≠ '\n')

/-- The place after a text, counted from its beginning. -/
theorem first_after (text : List Char) :
    first.after text =
      ⟨bytes text, 1 + text.count '\n', 1 + (sinceBreak text).length⟩ := by
  induction text using List.reverseRecOn with
  | nil => rfl
  | append_singleton text c ih =>
    have hstep : first.after (text ++ [c]) = (first.after text).step c :=
      after_append first text [c]
    rw [hstep, ih, step]
    split_ifs with hc
    · subst hc
      simp [sinceBreak, Nat.add_assoc]
    · simp [sinceBreak, hc, Nat.add_assoc]

@[simp] theorem offset_first_after (text : List Char) : (first.after text).offset = bytes text := by
  rw [first_after]

end Token.Place

end CodecDocs
