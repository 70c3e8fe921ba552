import Acceptor.Codegen.Literal
import Acceptor.Proofs.Text.Classes

/-!
# Literals are read back

A character or a string is written between quotes with escapes, and reading the literal
gives it back, whatever stands behind it (`readChar?_escape`, `readBody_literalBody`). An
escape is seen from behind its backslash (`escape_cases`), as a character begins with one
of its own while a string goes on with any of its characters.
-/

namespace Acceptor.Codegen

@[simp] theorem prepend_some {α : Type} (a : α) (body rest : List α) :
    prepend a (some (body, rest)) = some (a :: body, rest) := rfl

/-! ## Escapes by number -/

theorem hexValue?_digitChar : ∀ d < 16, hexValue? (Nat.digitChar d) = some d := by decide

theorem digitChar_ne_mark : ∀ d < 16, Nat.digitChar d ≠ '}' ∧ Nat.digitChar d ≠ '_' := by decide

variable {quote : Char} {limit : Nat}

theorem readNumber_digit {d count value : Nat} (hd : d < 16) (hcount : count < 6)
    (rest : List Char) :
    readNumber quote limit count value (Nat.digitChar d :: rest) =
      readNumber quote limit (count + 1) (16 * value + d) rest := by
  obtain ⟨hbrace, hlow⟩ := digitChar_ne_mark d hd
  rw [readNumber, if_neg hbrace, if_neg hlow, hexValue?_digitChar d hd]
  exact if_pos hcount

/-- The digits of a number are read as the number. -/
theorem readNumber_toDigits (n : Nat) (rest : List Char)
    (hlength : (Nat.toDigits 16 n).length ≤ 6) :
    readNumber quote limit 0 0 (Nat.toDigits 16 n ++ rest) =
      readNumber quote limit (Nat.toDigits 16 n).length n rest := by
  induction n using Nat.strongRecOn generalizing rest with
  | ind n ih =>
    by_cases hlt : n < 16
    · rw [Nat.toDigits_of_lt_base hlt, List.singleton_append, readNumber_digit hlt (by decide)]
      simp
    · have hsplit := Nat.toDigits_of_base_le (b := 16) (by decide) (Nat.le_of_not_lt hlt)
      rw [hsplit, List.length_append, List.length_singleton] at hlength
      have hlast : n % 16 < 16 := Nat.mod_lt n (by decide)
      rw [hsplit, List.append_assoc, List.singleton_append,
        ih (n / 16) (by omega) _ (by omega), readNumber_digit hlast (by omega), Nat.div_add_mod,
        List.length_append, List.length_singleton]

theorem length_toDigits_char (c : Char) : (Nat.toDigits 16 c.toNat).length ≤ 6 := by
  rw [Nat.length_toDigits_le_iff (by decide) (by decide)]
  have hlt : c.toNat < 0x110000 := by
    rcases c.valid with hlow | ⟨-, hhigh⟩
    · exact Nat.lt_trans hlow (by decide)
    · exact hhigh
  exact Nat.lt_trans hlt (by decide)

theorem readEscape_number (c : Char) (rest : List Char) :
    readEscape quote limit ('u' :: '{' :: (Nat.toDigits 16 c.toNat ++ '}' :: rest)) =
      prepend c (readBody quote limit false rest) := by
  have hvalid : 0 < (Nat.toDigits 16 c.toNat).length ∧ c.toNat.isValidChar :=
    ⟨Nat.length_toDigits_pos, c.valid⟩
  rw [readEscape, if_pos rfl, readNumber_toDigits _ _ (length_toDigits_char c), readNumber,
    if_pos rfl, if_pos hvalid, Char.ofNat_toNat]

/-! ## Characters and strings -/

/-- A character stands for itself or is read from behind the backslash of its escape. -/
theorem escape_cases (hquote : quote = '\'' ∨ quote = '"') (c : Char) :
    (Text.escape quote c = [c] ∧ c ≠ '\r' ∧ c ≠ quote ∧ c ≠ '\\') ∨
      ∃ tail, Text.escape quote c = '\\' :: tail ∧ ∀ limit rest,
        readEscape quote limit (tail ++ rest) = prepend c (readBody quote limit false rest) := by
  by_cases hzero : c = '\x00'
  · subst hzero
    exact .inr ⟨['0'], rfl, fun _ _ => by simp [readEscape, shortEscape?]⟩
  by_cases htab : c = '\t'
  · subst htab
    exact .inr ⟨['t'], rfl, fun _ _ => by simp [readEscape, shortEscape?]⟩
  by_cases hline : c = '\n'
  · subst hline
    exact .inr ⟨['n'], rfl, fun _ _ => by simp [readEscape, shortEscape?]⟩
  by_cases hreturn : c = '\r'
  · subst hreturn
    exact .inr ⟨['r'], rfl, fun _ _ => by simp [readEscape, shortEscape?]⟩
  by_cases hmark : c = '\\' ∨ c = quote
  · have hshort : c = '\\' ∨ c = '\'' ∨ c = '"' := by
      rcases hmark with rfl | rfl
      · exact .inl rfl
      · exact .inr hquote
    have hescape : Text.escape quote c = ['\\', c] := by
      simp [Text.escape, hzero, htab, hline, hreturn, hmark]
    refine .inr ⟨[c], hescape, fun _ _ => ?_⟩
    rcases hshort with rfl | rfl | rfl <;> simp [readEscape, shortEscape?]
  · obtain ⟨hback, hother⟩ := not_or.1 hmark
    by_cases hvisible : Text.isVisible c
    · refine .inl ⟨?_, hreturn, hother, hback⟩
      simp [Text.escape, hzero, htab, hline, hreturn, hback, hother, hvisible]
    · refine .inr ⟨'u' :: '{' :: (Nat.toDigits 16 c.toNat ++ ['}']), ?_, fun _ _ => ?_⟩
      · simp [Text.escape, hzero, htab, hline, hreturn, hback, hother, hvisible, Text.numberEscape]
      · simpa using readEscape_number c _

/-- Outside of escapes a body is read character by character. -/
theorem readBody_cons {c : Char} (hreturn : c ≠ '\r') (rest : List Char) :
    readBody quote limit false (c :: rest) =
      if c = quote then some ([], rest)
      else if c = '\\' then readEscape quote limit rest
      else prepend c (readBody quote limit false rest) := by
  rw [readBody.eq_def]
  simp [hreturn]

theorem readBody_backslash (hquote : quote = '\'' ∨ quote = '"') (rest : List Char) :
    readBody quote limit false ('\\' :: rest) = readEscape quote limit rest := by
  have hne : '\\' ≠ quote := by rcases hquote with rfl | rfl <;> decide
  rw [readBody_cons (by decide), if_neg hne, if_pos rfl]

theorem readBody_quote (hquote : quote = '\'' ∨ quote = '"') (rest : List Char) :
    readBody quote limit false (quote :: rest) = some ([], rest) := by
  have hne : quote ≠ '\r' := by rcases hquote with rfl | rfl <;> decide
  rw [readBody_cons hne, if_pos rfl]

theorem readBody_escape (hquote : quote = '\'' ∨ quote = '"') (c : Char) (rest : List Char) :
    readBody quote limit false (Text.escape quote c ++ rest) =
      prepend c (readBody quote limit false rest) := by
  rcases escape_cases hquote c with ⟨hself, hreturn, hother, hback⟩ | ⟨tail, hescape, hread⟩
  · rw [hself, List.singleton_append, readBody_cons hreturn, if_neg hother, if_neg hback]
  · rw [hescape, List.cons_append, readBody_backslash hquote, hread]

/-- A character is read back from behind its opening quote. -/
theorem readChar?_escape (c : Char) (rest : List Char) :
    readChar? limit (Text.escape '\'' c ++ '\'' :: rest) = some (c, rest) := by
  have hclose : readBody '\'' limit false ('\'' :: rest) = some ([], rest) :=
    readBody_quote (.inl rfl) rest
  rcases escape_cases (.inl rfl) c with ⟨hself, -, -, hback⟩ | ⟨tail, hescape, hread⟩
  · rw [hself, List.singleton_append, readChar?]
    exact hback
  · rw [hescape, List.cons_append, readChar?, hread, hclose, prepend_some]

/-- A string is read back from behind its opening quote. -/
theorem readBody_literalBody (s rest : List Char) :
    readBody '"' 128 false (literalBody s ++ '"' :: rest) = some (s, rest) := by
  induction s with
  | nil => exact readBody_quote (.inr rfl) rest
  | cons c s ih =>
    rw [literalBody]
    split
    next hzero =>
      have hnumber : hexValue? '0' = some 0 := by decide
      rw [List.cons_append, readBody_backslash (.inr rfl), hzero.1]
      simp [readEscape, hnumber, ih]
    next =>
      rw [List.append_assoc, readBody_escape (.inr rfl), ih, prepend_some]

end Acceptor.Codegen
