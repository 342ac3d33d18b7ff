import SableFront.Proofs.Rollback.Frame

/-!
# Rollback: attempts leave no trace

Generic arguments are attempted: if the `<` turns out to open none, reading goes back to it. The
attempt may have read any expression by then, and so any statement, in the body of a lambda. Going
back restores the token, the errors, the lookaside and the current scope, but not the symbol table;
`genericArguments_leaves_no_trace` says that nothing has happened to what was in the table before.
-/

namespace SableFront

namespace Grammar

/-- What an attempt may change if it leaves no trace: nothing, except that symbols and scopes are
added to the table and that comments which were passed over are forgotten. -/
structure State.NoTrace (s t : State) : Prop where
  lexer : t.lexer = s.lexer
  newlineBefore : t.newlineBefore = s.newlineBefore
  errors : t.errors = s.errors
  lookaside : t.lookaside = s.lookaside
  templateScope : t.templateScope = s.templateScope
  current : t.symbols.current = s.symbols.current
  size_le : s.symbols.size ≤ t.symbols.size
  symbol : ∀ id < s.symbols.size, t.symbols.symbol? id = s.symbols.symbol? id
  scopes_le : s.symbols.scopes.size ≤ t.symbols.scopes.size
  scope : ∀ id < s.symbols.scopes.size, t.symbols.scope? id = s.symbols.scope? id

variable {s t : State}

/-- Going back from where the frame still holds leaves no trace. -/
theorem noTrace_rewind (hs : s.templateScope = none)
    (ht : (Frame.ofState s).Holds s.place t) : s.NoTrace (t.rewind s) where
  lexer := rfl
  newlineBefore := rfl
  errors := (List.prefix_iff_eq_take.mp ht.errors).symm
  lookaside := rfl
  templateScope := by
    rw [hs]
    exact ht.quiet
  current := rfl
  size_le := ht.table.size_le
  symbol := ht.table.symbol
  scopes_le := ht.table.scopes_le
  scope := ht.table.scope

/-- **An attempt that fails leaves no trace.** Whatever is read while generic arguments are
attempted, if there are none in the end, then the token, the errors, the lookaside, the note and the
current scope are as before, and so are all symbols and scopes there were. -/
theorem genericArguments_leaves_no_trace (n : Nat) (hs : s.templateScope = none)
    (hnone : outcome (genericArguments (rules n)) s = (.ok none, t)) : s.NoTrace t := by
  let f := Frame.ofState s
  have hattempt : Preserves (f.discipline.Holds s.place) (orNone do
      let _ ← advance
      commaList (rules n).rounds angle (fun _ => .missingComma) (genericArgument (rules n)))
      fun _ => True := by
    have hlist : Preserves (f.discipline.Holds s.place)
        (commaList (rules n).rounds angle (fun _ => .missingComma) (genericArgument (rules n)))
        fun found => ∀ n ∈ found.1, f.discipline.Value n :=
      (obeys_genericArgument (framed_rules n f)).commaList .closeAngle _
    exact (Preserves.orNone (Preserves.advance.bind fun _ _ => hlist)).weaken fun _ _ => trivial
  have hrewind : Meets s (genericArguments (rules n)) (genericArguments (rules n))
      (fun r t => r.elim (s.NoTrace t) fun _ => True) fun _ _ => True := by
    refine .orRewind ((hattempt (Frame.holds_ofState hs)).mono (fun r u hu => ?_)
      fun _ _ _ => trivial)
    cases r with
    | none => exact noTrace_rewind hs hu.1
    | some found => trivial
  exact hrewind.of_ok hnone

/-- The attempt may have declared a class in the body of a lambda. -/
theorem lambda_leaves_no_trace :
    let s := State.start "<function(){class A{}};" .standard
    ∃ t, outcome (genericArguments (rules 9)) s = (.ok none, t) ∧
      s.symbols.size < t.symbols.size ∧ s.NoTrace t := by
  intro s
  have hsize : s.symbols.size < (outcome (genericArguments (rules 9)) s).2.symbols.size := by
    decide +kernel
  have hrun :
      (outcome (genericArguments (rules 9)) s).1.toOption.map Option.isNone = some true := by
    decide +kernel
  rcases hnone : outcome (genericArguments (rules 9)) s with ⟨_ | _ | _, t⟩
  · rw [hnone] at hrun
    cases hrun
  · rw [hnone] at hsize
    exact ⟨t, rfl, hsize, genericArguments_leaves_no_trace 9 rfl hnone⟩
  · rw [hnone] at hrun
    cases hrun

end Grammar

end SableFront
