import StackCompiler.Proofs.Token.LongestMatch
import StackCompiler.Proofs.Typing.Rules

/-!
Literals of a source. The lexemes that the scanner makes of numbers, characters and strings have a fixed
shape, so that a literal has a value exactly when it has a type.
-/

set_option autoImplicit false
namespace StackCompiler

open Lowering

/-- The lexemes of literals: a number starts with a digit, a character or a string stands in quotes. -/
structure Token.Scanned (t : Token) : Prop where
  number : t.kind = .number → ∃ d rest, t.lexeme.toList = d :: rest ∧ d.isDigit = true
  character : t.kind = .character → ∃ c, t.lexeme.toList = ['\'', c, '\'']
  string : t.kind = .string → ∃ inside, t.lexeme.toList = '"' :: (inside ++ ['"'])

namespace Token

theorem scanned_of_kind {t : Token} (h : t.kind ∉ [Kind.number, .character, .string]) : t.Scanned := by
  simp only [List.mem_cons, List.not_mem_nil, or_false, not_or] at h
  exact ⟨fun hkind => absurd hkind h.1, fun hkind => absurd hkind h.2.1, fun hkind => absurd hkind h.2.2⟩

theorem IsLexeme.scanned {kind : Kind} {lexeme : List Char} (h : IsLexeme kind lexeme) (line : Nat) :
    Scanned ⟨kind, String.ofList lexeme, line⟩ := by
  cases h with
  | whole nonempty all =>
    obtain ⟨d, rest, rfl⟩ := List.exists_cons_of_ne_nil nonempty
    refine ⟨fun _ => ⟨d, rest, String.toList_ofList, all d List.mem_cons_self⟩, ?_, ?_⟩ <;>
      intro hkind <;> cases hkind
  | fraction nonempty all =>
    obtain ⟨d, rest, rfl⟩ := List.exists_cons_of_ne_nil nonempty
    refine ⟨fun _ => ⟨d, _, String.toList_ofList, all d List.mem_cons_self⟩, ?_, ?_⟩ <;>
      intro hkind <;> cases hkind
  | @character c =>
    refine ⟨?_, fun _ => ⟨c, String.toList_ofList⟩, ?_⟩ <;> intro hkind <;> cases hkind
  | @string inside =>
    refine ⟨?_, ?_, fun _ => ⟨inside, String.toList_ofList⟩⟩ <;> intro hkind <;> cases hkind
  | _ => exact scanned_of_kind (by simp)

/-- What the scanner takes for one token. -/
theorem LongestMatch.scanned {text : List Char} {kind : Kind} {lexeme : List Char}
    (h : LongestMatch text kind lexeme) (line : Nat) : Scanned ⟨kind, String.ofList lexeme, line⟩ := by
  cases h with
  | lexeme valid => exact valid.scanned line
  | bad => exact scanned_of_kind (by simp)

end Token

theorem Cursor.read_scanned {c c' : Cursor} {t : Token} (h : c.read = (some t, c')) : t.Scanned := by
  unfold read at h
  split at h
  next first rest more _ =>
    obtain ⟨ht, -⟩ := Prod.mk.inj h
    cases ht
    exact (Token.classify_longest first rest).scanned _
  next => simp at h

theorem Cursor.tokens_scanned (c : Cursor) : ∀ t ∈ c.tokens, t.Scanned := by
  induction c using tokens.induct with
  | case1 c t c' hnext ih =>
    intro u hu
    rw [tokens, hnext] at hu
    rcases List.mem_cons.1 hu with rfl | hu
    · exact read_scanned hnext
    · exact ih u hu
  | case2 c c' hnext =>
    intro u hu
    rw [tokens, hnext] at hu
    cases hu

/-- Every token of a source comes from the scanner. -/
theorem scanned_of_mem_tokenize {source : String} {t : Token} (h : t ∈ tokenize source) : t.Scanned :=
  (Cursor.start source).tokens_scanned t h

namespace Typing

/-- A numeral without sign is read if its digits are digits and the number fits. -/
theorem readWord_isSome {text : String} {d : Char} {rest : List Char} (htext : text.toList = d :: rest)
    (hd : d.isDigit = true) : (Text.readWord? text).isSome = true ↔ IsNumeral text := by
  have hsign : Text.splitSign (d :: rest) = (false, d :: rest) := by
    unfold Text.splitSign
    split
    next h =>
      cases h
      cases hd
    next h =>
      cases h
      cases hd
    next => rfl
  have hread : Text.readInt? text.toList =
      if text.toList.all Char.isDigit = true then some (Text.digitsValue text.toList : Int) else none := by
    simp [Text.readInt?, htext, hsign]
  have hmin : Int32.minValue.toInt = -2147483648 := by decide
  have hmax : Int32.maxValue.toInt = 2147483647 := by decide
  rw [Text.readWord?, hread, IsNumeral, hmin, hmax]
  split
  next hdigits =>
    rw [Option.bind_some, Option.isSome_ite, and_iff_right hdigits]
    omega
  next hdigits => simp [hdigits]

/-- A literal has an instruction exactly when it has a type, which is the same. -/
theorem literal_iff {token : Token} (hscanned : token.Scanned) {ty : Ty} :
    (∃ push, literal? token = some (push, ty)) ↔ LiteralType token ty := by
  constructor
  · rintro ⟨push, h⟩
    unfold literal? at h
    split at h
    next hkind =>
      obtain ⟨n, hn, hpush⟩ := Option.map_eq_some_iff.1 h
      cases hpush
      obtain ⟨d, rest, htext, hd⟩ := hscanned.number hkind
      exact .number hkind ((readWord_isSome htext hd).1 (by rw [hn]; rfl))
    next hkind =>
      obtain ⟨c, -, hpush⟩ := Option.map_eq_some_iff.1 h
      cases hpush
      exact .character hkind
    next hkind =>
      obtain ⟨text, -, hpush⟩ := Option.map_eq_some_iff.1 h
      cases hpush
      exact .string hkind
    next hkind =>
      split at h
      next htrue =>
        cases h
        exact .truth ⟨hkind, by simp [htrue]⟩
      next =>
        split at h
        next hfalse =>
          cases h
          exact .truth ⟨hkind, by simp [hfalse]⟩
        next => cases h
    next => cases h
  · intro h
    cases h with
    | number hkind hfits =>
      obtain ⟨d, rest, htext, hd⟩ := hscanned.number hkind
      obtain ⟨n, hn⟩ := Option.isSome_iff_exists.1 ((readWord_isSome htext hd).2 hfits)
      exact ⟨.pushInt n, by simp [literal?, hkind, hn]⟩
    | character hkind =>
      obtain ⟨c, htext⟩ := hscanned.character hkind
      exact ⟨.pushChar c, by simp [literal?, hkind, htext]⟩
    | string hkind =>
      obtain ⟨inside, htext⟩ := hscanned.string hkind
      exact ⟨.pushString (String.ofList inside), by simp [literal?, hkind, htext, unquote?]⟩
    | truth htruth =>
      obtain ⟨hkind, htext⟩ := htruth
      simp only [List.mem_cons, List.not_mem_nil, or_false] at htext
      rcases htext with htext | htext
      · exact ⟨.pushBool true, by simp [literal?, hkind, htext]⟩
      · exact ⟨.pushBool false, by simp [literal?, hkind, htext]⟩

end Typing

end StackCompiler
