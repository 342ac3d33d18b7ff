import SableFront.Proofs.Contract
import SableFront.Proofs.Spaced.Word

/-!
# Spaced text: states before words

A state is *before* words if they lie ahead, the first one being the current token, and if nothing
else has happened yet: no error, no comment, no name in the lookaside, no symbols but the builtin
types. `Goes p ws rest Q` says that a production started before `ws` gives a result that satisfies
`Q` and stops before `rest`. There is one rule for each way to go on.
-/

namespace SableFront

namespace Grammar

/-! ### From states to states -/

section Leads

variable {α β : Type} {before mid after : State → Prop}

/-- Started where `before` holds, the production gives a result that satisfies `Q`, and then `after`
holds. -/
def Leads (before : State → Prop) (p : Production α) (after : State → Prop) (Q : α → Prop) : Prop :=
  ∀ ⦃s⦄, before s → Meets s p p (fun a t => Q a ∧ after t) fun _ _ => False

namespace Leads

variable {p : Production α} {Q : α → Prop} {Q' : β → Prop}

theorem mono {Q' : α → Prop} (h : Leads before p after Q) (hQ : ∀ a, Q a → Q' a) :
    Leads before p after Q' := fun _ hs => (h hs).weaken fun a _ ha => ⟨hQ a ha.1, ha.2⟩

/-- What leads on from more states leads on from fewer. -/
theorem start {before' : State → Prop} (h : Leads before p after Q)
    (hs : ∀ s, before' s → before s) : Leads before' p after Q := fun s hs' => h (hs s hs')

theorem pure {a : α} (h : Q a) : Leads before (pure a : Production α) before Q :=
  fun _ hs => .pure ⟨h, hs⟩

theorem bind {f : α → Production β} (h : Leads before p mid Q)
    (hf : ∀ a, Q a → Leads mid (f a) after Q') : Leads before (p >>= f) after Q' :=
  fun _ hs => (h hs).bind fun a _ ha => hf a ha.1 ha.2

theorem map {f : α → β} (h : Leads before p after fun a => Q' (f a)) :
    Leads before (f <$> p) after Q' := fun _ hs => .map (h hs)

theorem require {p : Production (Option α)} (h : Leads before p after fun r => ∃ a, r = some a ∧ Q a)
    (missing : ErrorKind) : Leads before (require p missing) after Q := by
  refine h.bind fun r hr => ?_
  obtain ⟨a, rfl, ha⟩ := hr
  exact .pure ha

theorem operand {p : Production (Option Node)} {Q : Node → Prop}
    (h : Leads before p after fun r => ∃ n, r = some n ∧ Q n) :
    Leads before (operand p) after Q := by
  refine h.bind fun r hr => ?_
  obtain ⟨n, rfl, hn⟩ := hr
  exact .pure hn

theorem get : Leads before get before before := fun s hs => .result s s rfl rfl ⟨hs, hs⟩

/-- What is there is no reason to go back. -/
theorem orRewind {p : Production (Option α)}
    (h : Leads before p after fun r => ∃ a, r = some a ∧ Q a) :
    Leads before (orRewind p) after fun r => ∃ a, r = some a ∧ Q a := by
  refine fun s hs => .orRewind ((h hs).weaken fun r t hr => ?_)
  obtain ⟨⟨a, rfl, ha⟩, ht⟩ := hr
  exact ⟨⟨a, rfl, ha⟩, ht⟩

theorem orNone (h : Leads before p after Q) :
    Leads before (orNone p) after fun r => ∃ a, r = some a ∧ Q a := by
  refine fun s hs => .orNone ((h hs).mono (fun a t ha => ?_) fun e t he => he.elim)
  exact ⟨⟨a, rfl, ha.1⟩, ha.2⟩

variable {round : α → Production (α ⊕ β)} {rounds : Nat} {a : α}

/-- A round gives the result of a loop. -/
theorem loop_last (h : Leads before (round a) after fun r => ∃ b, r = .inr b ∧ Q' b) :
    Leads before (loop round (rounds + 1) a) after Q' := by
  refine h.bind fun r hr => ?_
  obtain ⟨b, rfl, hb⟩ := hr
  exact .pure hb

/-- A round of a loop is followed by others. -/
theorem loop_next (h : Leads before (round a) mid fun r => ∃ a', r = .inl a' ∧ Q a')
    (hrest : ∀ a', Q a' → Leads mid (loop round rounds a') after Q') :
    Leads before (loop round (rounds + 1) a) after Q' := by
  refine h.bind fun r hr => ?_
  obtain ⟨a', rfl, ha⟩ := hr
  exact hrest a' ha

end Leads

end Leads

/-! ### Before words -/

variable {α β : Type} {w : Word} {ws mid rest : List Word} {s : State} {k : Kind}

/-- The words lie ahead, and nothing else has happened yet. -/
structure Before (ws : List Word) (s : State) : Prop where
  kind : s.current.kind = Word.kindAt ws
  value : ∀ w ∈ ws.head?, s.current.value = w.value
  rest : s.lexer.cursor.rest = spaced ws.tail
  words : ∀ w ∈ ws, w.IsRead
  line : s.newlineBefore = false
  errors : s.errors = []
  comments : s.comments = []
  lookaside : s.lookaside = none
  symbols : s.symbols = .initial

namespace Before

theorem bump (h : Before (w :: ws) s) : Before ws s.bump := by
  have hws : ∀ v ∈ ws, v.IsRead := fun v hv => h.words v (List.mem_cons_of_mem w hv)
  obtain ⟨hkind, hvalue, hrest, hnewline, hcomments⟩ := Cursor.finds_spaced hws h.rest
  refine ⟨hkind, hvalue, hrest, hws, hnewline, h.errors, ?_, h.lookaside, h.symbols⟩
  show s.comments ++ s.lexer.cursor.significant.comments = []
  rw [h.comments, hcomments, List.append_nil]

theorem advance (h : Before (w :: ws) s) : Before ws s.advance := by
  have heof : s.current.isEof = false := by
    rw [Token.isEof, h.kind]
    exact beq_false_of_ne (h.words w List.mem_cons_self).not_eof
  rw [State.advance, heof, if_neg Bool.false_ne_true]
  exact h.bump

theorem isAt (h : Before ws s) (k : Kind) : s.isAt k = (Word.kindAt ws == k) := by
  rw [State.isAt, h.kind]

end Before

/-- A text of words starts before them. -/
theorem before_start (hws : ∀ v ∈ w :: ws, v.IsRead) (config : ParseConfig) :
    Before (w :: ws) (State.start (sourceOf (w :: ws)) config) := by
  have hw := hws w List.mem_cons_self
  obtain ⟨hkind, hvalue, hrest, hnewline, hcomments⟩ :=
    Cursor.finds_word (c := .start (sourceOf (w :: ws)).toList) hw (toList_sourceOf w ws)
  have hsymbols : (State.start (sourceOf (w :: ws)) config).symbols = .initial := by
    simp only [State.start, State.bump, State.unread]
  exact ⟨hkind, hvalue, hrest, hws, hnewline, rfl, hcomments, rfl, hsymbols⟩

/-- Before `ws` the production gives a result that satisfies `Q`, and stops before `rest`. -/
def Goes (p : Production α) (ws rest : List Word) (Q : α → Prop) : Prop :=
  Leads (Before ws) p (Before rest) Q

/-! ### Steps -/

theorem goes_get : Goes get ws ws (Before ws) := .get

theorem goes_current : Goes current ws ws fun t => t.kind = Word.kindAt ws :=
  fun s hs => .result s.current s rfl rfl ⟨hs.kind, hs⟩

theorem goes_isAt (k : Kind) : Goes (isAt k) ws ws (· = (Word.kindAt ws == k)) :=
  fun s hs => .result (s.isAt k) s rfl rfl ⟨hs.isAt k, hs⟩

/-- The token is the word. -/
def IsToken (w : Word) (t : Token) : Prop := t.kind = w.kind ∧ t.value = w.value

theorem goes_advance : Goes advance (w :: ws) ws (IsToken w) :=
  fun s hs => .result s.current s.advance rfl rfl ⟨⟨hs.kind, hs.value w rfl⟩, hs.advance⟩

theorem goes_eat (h : w.kind = k) :
    Goes (eat k) (w :: ws) ws fun r => ∃ t, r = some t ∧ IsToken w t := by
  intro s hs
  have hkind : Word.kindAt (w :: ws) = k := h
  have heat := outcome_eat s k
  rw [hs.isAt k, beq_iff_eq.mpr hkind, if_pos rfl] at heat
  exact .result _ _ heat heat ⟨⟨_, rfl, hs.kind, hs.value w rfl⟩, hs.advance⟩

theorem goes_eat_none (h : Word.kindAt ws ≠ k) : Goes (eat k) ws ws (· = none) := by
  intro s hs
  have heat := outcome_eat s k
  rw [hs.isAt k, beq_false_of_ne h, if_neg Bool.false_ne_true] at heat
  exact .result _ _ heat heat ⟨rfl, hs⟩

theorem goes_expect (h : w.kind = k) (missing : ErrorKind) :
    Goes (expect k missing) (w :: ws) ws (IsToken w) := by
  refine (goes_eat h).bind fun r hr => ?_
  obtain ⟨t, rfl, ht⟩ := hr
  exact .pure ht

theorem goes_expectIdent {name : String} :
    Goes expectIdent (.name name :: ws) ws fun found => found.1 = name := by
  intro s hs
  have hident := outcome_expectIdent s
  rw [hs.isAt .ident, if_pos (by rfl)] at hident
  refine .result _ _ hident hident ⟨?_, hs.advance⟩
  have hvalue : s.current.value = .text name := hs.value (.name name) rfl
  show s.current.text?.getD "" = name
  rw [Token.text?, hvalue]
  rfl

end Grammar

end SableFront
