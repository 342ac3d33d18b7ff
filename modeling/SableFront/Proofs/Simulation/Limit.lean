import SableFront.Proofs.Simulation.Reading

/-!
# Simulation: the limit on errors

Errors are only kept, never looked at. A reading that keeps at most so many errors goes back in its
attempts to as many of them as one without a limit does, up to the limit: so it gives the same tree
and the same symbols, and its errors are the first ones.
-/

namespace SableFront

namespace Grammar.Simulation

/-! ### Two readings of one text -/

/-- A text is read with all errors kept, and with other options. -/
def ofText (view : View) (config config' : ParseConfig) (hlimit : config.maxErrors = none)
    (hspeculates : config'.speculateGenerics = config.speculateGenerics)
    (hattaches : view = .whole → config'.attachComments = config.attachComments)
    (hlined : view ≠ .lined := by decide) : Simulation where
  view := view
  config := config
  config' := config'
  lexer := Eq
  unlimited := hlimit
  speculates := hspeculates
  attaches h := hattaches (by cases view <;> first | rfl | exact absurd rfl hlined | cases h)
  token := by
    rintro l _ rfl
    rfl
  next := by
    rintro l _ rfl
    exact ⟨rfl, rfl, rfl⟩
  split := by
    rintro l _ rfl
    rfl

/-- A text is read alike with other options, as far as the view tells the options apart. -/
theorem parse_ofText (source : String) (view : View) (config config' : ParseConfig)
    (hlimit : config.maxErrors = none)
    (hspeculates : config'.speculateGenerics = config.speculateGenerics)
    (hattaches : view = .whole → config'.attachComments = config.attachComments)
    (hlined : view ≠ .lined := by decide) :
    let p := Program.parse source config
    let p' := Program.parse source config'
    Node.AlikeItems view p.nodes p'.nodes ∧
      view.Alike (keptErrors config'.maxErrors p.errors) p'.errors ∧ p.symbols = p'.symbols := by
  have hunread : (ofText view config config' hlimit hspeculates hattaches hlined).Holds
      (.unread source config) (.unread source config') :=
    ⟨rfl, rfl, rfl, keptErrors_nil _ ▸ .nil, .none, rfl, rfl, rfl, rfl⟩
  exact parse_alike hunread.bump

end Grammar.Simulation

open Grammar.Simulation

/-! ### What looks alike when everything is seen -/

theorem Node.AlikeItems.eq {ns ns' : List Node} (h : Node.AlikeItems .whole ns ns') : ns = ns' := by
  rw [← Node.seenAll_whole ns, ← Node.seenAll_whole ns']
  exact h

theorem eq_of_alike_whole {es es' : List SyntaxError} (h : View.whole.Alike es es') : es = es' := by
  induction h with
  | nil => rfl
  | @cons e e' es es' he hes ih =>
    obtain ⟨kind, token, reason⟩ := e
    obtain ⟨kind', token', reason'⟩ := e'
    obtain ⟨rfl, htoken, hreason⟩ := he
    obtain rfl : token = token' := htoken
    obtain rfl : reason = reason' := hreason
    rw [ih]

/-! ### The limit -/

namespace Program

/-- The program with its first errors only, as many as may be kept. -/
def limited (p : Program) (limit : Option Nat) : Program :=
  { p with errors := keptErrors limit p.errors }

/-- **Errors beyond the limit are left out, and nothing else changes.** -/
theorem parse_limit (source : String) (config : ParseConfig) :
    parse source config =
      (parse source { config with maxErrors := none }).limited config.maxErrors := by
  obtain ⟨hnodes, herrors, hsymbols⟩ :=
    parse_ofText source .whole { config with maxErrors := none } config rfl rfl fun _ => rfl
  have hlimited (p p' : Program) (h : Node.AlikeItems .whole p.nodes p'.nodes)
      (he : View.whole.Alike (keptErrors config.maxErrors p.errors) p'.errors)
      (hs : p.symbols = p'.symbols) : p' = p.limited config.maxErrors := by
    rw [limited, h.eq, eq_of_alike_whole he, hs]
  exact hlimited _ _ hnodes herrors hsymbols

theorem isOk_limited (p : Program) (n : Nat) : (p.limited (some n)).isOk = (n == 0 || p.isOk) := by
  show (p.errors.take n).isEmpty = (n == 0 || p.errors.isEmpty)
  cases n with
  | zero => rfl
  | succ n => cases p.errors <;> rfl

/-- **A limit on errors is seen in the list of errors only.** With a limit the nodes are the same,
down to their spans, comments and symbols, the symbol table is the same, and the errors are the first
ones found without a limit. So unless no error is kept at all, both readings tell alike whether
something was wrong. -/
theorem limit_leaves_out_later_errors (source : String) (attach speculate : Bool) (n : Nat) :
    let full := parse source ⟨attach, speculate, none⟩
    let limited := parse source ⟨attach, speculate, some n⟩
    limited.nodes = full.nodes ∧ limited.symbols = full.symbols ∧
      limited.errors = full.errors.take n ∧ limited.isOk = (n == 0 || full.isOk) := by
  dsimp only
  rw [parse_limit source ⟨attach, speculate, some n⟩]
  exact ⟨rfl, rfl, rfl, isOk_limited _ n⟩

end Program

end SableFront
