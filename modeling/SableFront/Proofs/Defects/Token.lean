import SableFront.Proofs.Lookahead
import SableFront.Tree.Basic

/-!
# Defects: what tokens promise

A token that is *well made* becomes the node that its kind announces: one of a literal kind has a
value of that kind, so its node is not invalid, and an invalid one covers some text, so it is no
placeholder. Only well-made tokens are read.
-/

namespace SableFront

/-! ### Lexemes -/

namespace Lexeme

variable {c : Char} {cs : List Char} {l : Lexeme} {word : String} {w : Kind × Value}

/-- The value is one that the kind announces. -/
def suits : Kind → Value → Bool
  | .int, .int _ | .float, .float .. | .str, .str _ | .char, .char _ | .bool, .bool _ => true
  | .null, _ => true
  | kind, _ => !kind.isLiteral

theorem IsLiteral.suits (h : IsLiteral c cs l) : suits l.kind l.value := by
  cases h <;> rfl

theorem IsWord.suits (h : IsWord word w) : suits w.1 w.2 := by
  cases h <;> rfl

theorem IsSymbol.suits (h : IsSymbol c cs l) : suits l.kind l.value := by
  cases h with
  | symbol hmem =>
    rcases kind_cases_of_symbol hmem with ⟨o, -, rfl⟩ | ⟨p, rfl⟩
    all_goals rfl
  | invalid => rfl

theorem suits_scan (c : Char) (cs : List Char) : suits (scan c cs).kind (scan c cs).value := by
  have h (l : Lexeme) (hl : CanStand c cs l) : suits l.kind l.value := by
    cases hl with
    | literal hl => exact hl.suits
    | word => exact (isWord_ofWord _).suits
    | symbol hl => exact hl.suits
    | _ => rfl
  exact h _ (canStand_scan c cs)

end Lexeme

/-! ### Tokens -/

namespace Token

/-- The token becomes the node that its kind announces. -/
structure WellMade (t : Token) : Prop where
  literal : t.kind.isLiteral → (Node.ofLiteral t).form ≠ .invalid
  size : t.kind = .invalid → t.size ≠ 0

theorem form_ofLiteral_ne_invalid {t : Token} (h : Lexeme.suits t.kind t.value)
    (hliteral : t.kind.isLiteral) : (Node.ofLiteral t).form ≠ .invalid := by
  obtain ⟨kind, value, span, offset, size, width⟩ := t
  have hform : Lexeme.suits kind value → kind.isLiteral →
      (Node.ofLiteral ⟨kind, value, span, offset, size, width⟩).form ≠ .invalid := by
    cases kind
    case int | float | str | char | bool =>
      cases value
      all_goals first
        | exact fun _ _ hform => Form.noConfusion hform
        | exact fun hsuits => absurd hsuits Bool.false_ne_true
    case null => exact fun _ _ hform => Form.noConfusion hform
    all_goals exact fun _ hliteral => absurd hliteral Bool.false_ne_true
  exact hform h hliteral

theorem wellMade_of_kind {t : Token} (hliteral : t.kind.isLiteral = false)
    (hinvalid : t.kind ≠ .invalid) : t.WellMade :=
  ⟨fun h => absurd (hliteral.symm.trans h) Bool.false_ne_true, fun h => absurd h hinvalid⟩

theorem wellMade_eof (p : Position) (offset : Nat) : (Token.eof p offset).WellMade :=
  wellMade_of_kind rfl (show Kind.eof ≠ .invalid by decide)

end Token

theorem Cursor.wellMade_next (c : Cursor) : c.next.1.WellMade := by
  by_cases hrest : c.rest = []
  · rw [next_nil hrest]
    exact Token.wellMade_eof _ _
  · obtain ⟨d, ds, hcons⟩ := List.exists_cons_of_ne_nil hrest
    have hsuits : Lexeme.suits c.next.1.kind c.next.1.value := by
      rw [next, hcons]
      exact Lexeme.suits_scan d ds
    refine ⟨Token.form_ofLiteral_ne_invalid hsuits, fun hinvalid hsize => ?_⟩
    have heof : c.next.1.kind = .eof := (next_sound (c := c) rfl).size_eq_zero.mp hsize
    rw [hinvalid] at heof
    cases heof

/-- Only well-made tokens are read. -/
theorem Cursor.wellMade_significant (c : Cursor) : c.significant.token.WellMade := by
  obtain ⟨d, htoken, -⟩ := c.exists_significant
  rw [htoken]
  exact d.wellMade_next

end SableFront
