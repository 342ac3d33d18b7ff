import SableFront.Proofs.Comments.Calm
import SableFront.Proofs.Survey.Reading

/-!
# Comments: attempts that are given up

Going back cuts the errors and the comments that wait to the numbers they had before. That restores
them if they have only been added to since, and they have where no list of statements has been read,
which collects what waits. In a calm text no attempt reads one, since only a lambda could hold it:
so within an attempt at generic arguments comments are only added (`grows_argumentList`), and so they
are within one at a declaration that turns out to be none (`grows_declaration`).
-/

namespace SableFront.Grammar

variable {P Q : List Kind → Prop} {before s t u : State} {r : Rules} {L : Survey}
  {ps xs : List Piece}

/-- The state has only been added to since an earlier one. -/
structure Extends (P : List Kind → Prop) (before s : State) : Prop where
  comments : before.comments <+: s.comments
  errors : before.errors <+: s.errors
  config : s.config = before.config
  placed : s.lexer.Placed
  words : P s.words

/-- The comments that wait and the configuration have only been added to since an earlier state. -/
structure Grows (before s : State) : Prop where
  comments : before.comments <+: s.comments
  config : s.config = before.config

/-- The survey of states that are only added to, for which no list of statements may be read. -/
def extending (P : List Kind → Prop) (before : State) : Survey :=
  .loose (fun _ => True) fun _ => Extends P before

namespace Extends

theorem refl (hplaced : s.lexer.Placed) (hwords : P s.words) : Extends P s s :=
  ⟨List.prefix_refl _, List.prefix_refl _, rfl, hplaced, hwords⟩

theorem grows (h : Extends P before s) : Grows before s := ⟨h.comments, h.config⟩

theorem congr (h : Extends P before s) (hlexer : t.lexer = s.lexer) (herrors : t.errors = s.errors)
    (hcomments : t.comments = s.comments) (hconfig : t.config = s.config) : Extends P before t := by
  have hwords : t.words = s.words := by
    rw [State.words, State.words, State.current, State.current, hlexer]
  constructor
  · rw [hcomments]
    exact h.comments
  · rw [herrors]
    exact h.errors
  · rw [hconfig]
    exact h.config
  · rw [hlexer]
    exact h.placed
  · rw [hwords]
    exact h.words

theorem advance (h : Extends P before s) (hP : Persistent P)
    (hs : s.current.kind ≠ .punctuation .semicolon) : Extends P before s.advance := by
  have hcomments : s.comments <+: s.advance.comments := by
    unfold State.advance
    split
    · exact List.prefix_refl _
    · exact List.prefix_append _ _
  have hplaced : s.advance.lexer.Placed := by
    unfold State.advance
    split
    · exact h.placed
    · exact Cursor.placed_significant _
  refine ⟨h.comments.trans hcomments, ?_, ?_, hplaced, hP.advance h.words hs⟩
  · rw [State.errors_advance]
    exact h.errors
  · rw [State.config_advance]
    exact h.config

theorem split (h : Extends P before s) (hP : Persistent P) (hs : isClosingAngle s.current.kind) :
    Extends P before { s with lexer := s.lexer.splitAngle?.getD s.lexer } := by
  obtain ⟨hplaced, -, hwords⟩ := ahead_splitAngle h.placed hs
  exact ⟨h.comments, h.errors, h.config, hplaced, hwords hP h.words⟩

theorem record (h : Extends P before s) (e : SyntaxError) : Extends P before (s.record e) := by
  have herrors : s.errors <+: (s.record e).errors := by
    unfold State.record
    split
    · exact List.prefix_refl _
    · exact List.prefix_append _ _
  have hlexer := s.lexer_record e
  refine ⟨?_, h.errors.trans herrors, ?_, ?_, ?_⟩
  · rw [State.comments_record]
    exact h.comments
  · rw [State.config_record]
    exact h.config
  · rw [hlexer]
    exact h.placed
  · rw [State.words, State.current, hlexer]
    exact h.words

/-- Going back from a state that has only been added to restores the earlier one. -/
theorem rewind (h : Extends P before s) (herrors : s.errors <+: t.errors) (ht : Grows s t) :
    Extends P before (t.rewind s) :=
  h.congr rfl (List.prefix_iff_eq_take.mp herrors).symm
    (List.prefix_iff_eq_take.mp ht.comments).symm ht.config

end Extends

theorem lawful_extending (hP : Persistent P) (before : State) : (extending P before).Lawful where
  breaks h := h
  fit_current _ := trivial
  fit _ _ := trivial
  congr h hlexer herrors hcomments _ hconfig := Extends.congr h hlexer herrors hcomments hconfig
  breaks_congr h hlexer herrors hcomments _ hconfig :=
    Extends.congr h hlexer herrors hcomments hconfig
  tidy h _ := h
  lose h _ := h
  mind h _ _ := h
  note h _ _ := h
  advance {ps s use} h huse := by
    refine Extends.advance h hP fun hsemicolon => ?_
    rw [hsemicolon] at huse
    cases huse
  junk {ps s e} h hs _ := by
    refine Extends.advance h hP fun hsemicolon => ?_
    cases (beq_iff_eq.mp hs).symm.trans hsemicolon
  close {ps s} h hs := by
    refine (Extends.split h hP hs).advance hP fun hsemicolon => ?_
    cases (Survey.kind_splitAngle hs).symm.trans hsemicolon
  record h _ := Extends.record h _
  missing h _ _ := h
  make h _ := h
  operate h _ _ := Extends.congr h rfl rfl rfl rfl
  breaks_operate h _ _ := Extends.congr h rfl rfl rfl rfl

theorem goesBack_extending (P : List Kind → Prop) (before : State) :
    (extending P before).GoesBack Grows := fun _ _ _ h _ herrors hgrows => h.rewind herrors hgrows

/-- Calm, also behind the next semicolon and every `<` there. -/
def quiet (ks : List Kind) : Prop := calm ks ∧ tame ks

theorem persistent_quiet : Persistent quiet := persistent_calm.and persistent_tame

/-- Behind a `<` a tame text is quiet. -/
theorem quiet_of_tame (h : tame s.words) (hlt : s.isAt (.operator .lt)) : quiet s.words := by
  have hwords := words_advance_of_isAt hlt (by decide)
  refine ⟨?_, h⟩
  rw [hwords] at h
  have hcalm : calm s.advance.words := calm_of_tame h
  rw [hwords]
  exact hcalm

/-! ### Generic arguments -/

/-- In a quiet text, a list of generic arguments only adds something. -/
theorem grows_argumentList (h : ∀ before, (extending quiet before).Links r) (hs : L.Has ps [] s)
    (hplaced : s.lexer.Placed) (hquiet : quiet s.words) (hlt : s.isAt (.operator .lt)) :
    Meets s.advance (commaList r.rounds angle (fun _ => .missingComma) (genericArgument r))
      (commaList r.rounds angle (fun _ => .missingComma) (genericArgument r)) (fun _ _ => True)
      fun _ => Grows s := by
  have hself : Extends quiet s s := .refl hplaced hquiet
  have hhas : (extending quiet s).Has [] [] s :=
    .intro hself (hs.kept.sane.sublist (List.nil_sublist _)) hs.idle hs.bare
  have hskip : (extending quiet s).Has [] [.token .angle s.current] s.advance :=
    hhas.advance (h s).lawful (allows_of_isAt hlt rfl)
  exact (Survey.yields_argumentList (h s) hskip.aside).mono (fun _ _ _ => trivial)
    fun _ t ht => Extends.grows ht.left.breaks

/-- No signature is read where there are no parameters. -/
theorem meets_signature_of_not {E : SyntaxError → State → Prop}
    (hs : ¬ s.isAt (.punctuation .lParen)) (hE : E (s.error .missingParams none) s) :
    Meets s (signature r) (signature r) (fun _ _ => False) E := by
  have heat := outcome_eat s (.punctuation .lParen)
  rw [if_neg hs] at heat
  have hexpect : Meets s (expect (.punctuation .lParen) .missingParams)
      (expect (.punctuation .lParen) .missingParams) (fun _ _ => False) E := by
    unfold expect
    rw [meets_step heat heat]
    exact .fail hE
  have hparams : Meets s (params r) (params r) (fun _ _ => False) E := by
    unfold params
    exact hexpect.bind fun _ _ h => h.elim
  unfold signature
  exact hparams.bind fun _ _ h => h.elim

/-- In a quiet text, `function` starts no lambda. -/
theorem keepsLambda_quiet (before : State) : (extending quiet before).KeepsLambda r := by
  intro ps s hs hkind
  have hL := lawful_extending persistent_quiet before
  have hquiet : quiet s.words := Extends.words hs.holds
  have hparen : ¬ State.isAt { s.advance with symbols := s.advance.symbols.push }
      (.punctuation .lParen) := by
    intro hat
    have hcalm := hquiet.1
    rw [words_advance_of_isAt (beq_iff_eq.mpr hkind) (by decide)] at hcalm
    exact ne_lParen_of_calm hcalm (beq_iff_eq.mp hat)
  have hkeyword : (extending quiet before).Has ps [.token .shown s.current] s.advance :=
    hs.advance hL (hkind ▸ rfl)
  have hmind := hkeyword.mindCurrent hL
  have hpush : SymbolTable.Operation.push.IsFor s.advance.symbols := trivial
  have hsignature : Meets { s.advance with symbols := s.advance.symbols.push }
      (signatureAndBody r none) (signatureAndBody r none) (fun _ _ => False)
      ((extending quiet before).Fails (ps ++ [.scope s.advance.symbols.current])) := by
    have hfails := (hmind.operate hL hpush).fails hL .missingParams none
    unfold signatureAndBody
    exact (meets_signature_of_not hparen hfails).bind fun _ _ h => h.elim
  unfold lambda
  rw [meets_advance]
  refine Meets.bind (.inScope (hsignature.mono (fun _ _ h => h.elim) fun e t he => ?_))
    fun _ _ h => h
  exact ⟨(he.left.enter hL (by simp)).sublist hL (List.sublist_append_left ps _), he.fit⟩

/-- **In a quiet text, all expressions only add something**, whatever the earlier state. -/
theorem circle_quiet (n : Nat) (before : State) :
    (extending quiet before).Circle (Survey.halting n) := by
  have hL := lawful_extending persistent_quiet
  -- an attempt starts anew, so all that is read in it is behind its own state
  have hcircle {r : Rules} (h : ∀ before, (extending quiet before).Links r) (before : State) :
      (extending quiet before).Circle r := by
    refine ⟨h before, keepsLambda_quiet before, ?_⟩
    refine (h before).keepsArguments (goesBack_extending quiet before) fun ps s hs hlt => ?_
    have hextends : Extends quiet before s := hs.holds
    exact grows_argumentList h hs hextends.placed hextends.words hlt
  induction n generalizing before with
  | zero => exact hcircle (fun before => Survey.links_exhausted (hL before) _) before
  | succ n ih => exact hcircle (fun before => (ih before).closed (n + 1) _) before

/-! ### Declarations -/

/-- In a tame text, attempts at generic arguments only add something: they are quiet. -/
theorem keepsArguments_tame (n : Nat) (before : State) :
    (extending (tame ·) before).KeepsArguments (Survey.halting n) := by
  intro ps s hs hlt
  have hextends : Extends (tame ·) before s := hs.holds
  have hquiet : Extends quiet before s :=
    ⟨hextends.comments, hextends.errors, hextends.config, hextends.placed,
      quiet_of_tame hextends.words hlt⟩
  have htame {t : State} (ht : Extends quiet before t) : Extends (tame ·) before t :=
    ⟨ht.comments, ht.errors, ht.config, ht.placed, ht.words.2⟩
  refine ((circle_quiet n before).arguments (.intro hquiet hs.kept.sane hs.idle hs.bare) hlt).mono
    (fun _ t ht => ?_) fun _ t he => ?_
  · exact .intro (htame ht.holds) ht.kept.sane ht.idle ht.bare
  · exact ⟨⟨htame he.left.breaks, he.left.sane⟩, trivial⟩

/-- In a tame text, an attempt at a declaration that turns out to be none only adds something. -/
theorem grows_declaration (n : Nat) (hs : L.Has ps [] s) (hplaced : s.lexer.Placed)
    (htame : tame s.words) :
    Meets s (declaration (Survey.halting n) none) (declaration (Survey.halting n) none)
      (fun found t => found = none → Grows s t) fun _ _ => True := by
  have hself : Extends (tame ·) s s := .refl hplaced htame
  have hhas : (extending (tame ·) s).Has [] [] s :=
    .intro hself (hs.kept.sane.sublist (List.nil_sublist _)) hs.idle hs.bare
  have htype := Survey.turns_typeRef (lawful_extending persistent_tame s) (keepsArguments_tame n s)
    none hhas
  unfold declaration
  refine (htype.mono (fun _ _ ht => Extends.grows ht.holds) fun _ _ _ => trivial).bind
    fun found t ht => ?_
  cases found with
  | none => exact .pure fun _ => ht
  | some type =>
    dsimp only
    rw [meets_isAt]
    split
    · refine .map ((Meets.any (typedVariable _ type) t).weaken fun node _ _ hnone => ?_)
      exact absurd hnone (Option.some_ne_none node)
    · exact .pure fun _ => ht

end SableFront.Grammar
