import SableFront.Proofs.Simulation.FirstLine
import SableFront.Proofs.Simulation.Statement

/-!
# Simulation: lists of statements and whole programs

Lists of statements match, item by item, and so everything does behind any number of circles. Two
programs whose first states are related end in related states, so their trees look alike, they
declare the same symbols, and the second one has the first of the errors of the first one.
-/

namespace SableFront

namespace Grammar

namespace Simulation

open Node

variable {S : Simulation} {r : Rules} {s s' : State}

/-! ### Comments -/

theorem leadingComments_alike (h : S.Holds s s') :
    S.view.comments (leadingComments s).1 = S.view.comments (leadingComments s').1 ∧
      AlikeItems S.view (leadingComments s).2 (leadingComments s').2 := by
  unfold leadingComments
  rw [h.config, h.config']
  by_cases hview : S.view.showsComments
  · rw [S.attaches hview]
    split
    · exact ⟨h.comments, rfl⟩
    · exact ⟨rfl, alikeItems_comments h.comments⟩
  · have hnone := S.view.comments_eq hview
    refine ⟨hnone _ _, ?_⟩
    have hitems (b : Bool) (s : State) : ∃ ts : List Token,
        (if b then (s.comments, []) else ([], s.comments.map ofComment)).2 = ts.map ofComment := by
      cases b with
      | true => exact ⟨[], rfl⟩
      | false => exact ⟨s.comments, rfl⟩
    obtain ⟨ts, hts⟩ := hitems S.config.attachComments s
    obtain ⟨us, hus⟩ := hitems S.config'.attachComments s'
    rw [hts, hus]
    exact alikeItems_comments (hnone ts us)

/-- Where comments are seen, lists of them are compared one by one. -/
theorem comments_eq_iff {v : View} (hview : v.showsComments) {ts us : List Token} :
    v.comments ts = v.comments us ↔ v.Alike ts us := by
  cases v
  case whole =>
    show ts = us ↔ List.Forall₂ (· = ·) ts us
    rw [List.forall₂_eq_eq_eq]
  case lined => exact ⟨forall₂_of_map_eq, map_token_alike⟩
  all_goals cases hview

/-- Whether a comment trails a node depends on the lines only. -/
theorem trails_iff (n : Node) (t : Token) : trails n t ↔ t.span.start.line ≤ n.span.stop.line := by
  rw [trails, Bool.or_eq_true, decide_eq_true_eq, beq_iff_eq, Position.lt_def]
  omega

theorem trails_alike {v : View} (hview : v.showsComments) {n n' : Node} (hn : v.Alike n n')
    {t t' : Token} (ht : v.Alike t t') : trails n t ↔ trails n' t' := by
  have hspan : v.span n.span = v.span n'.span := span_eq hn
  have htoken : v.token t = v.token t' := ht
  rw [trails_iff, trails_iff]
  cases v
  case whole => rw [show t = t' from htoken, show n.span = n'.span from hspan]
  case lined =>
    have hstop := congrArg (fun s : Span => s.stop.line) hspan
    rw [← (View.lined_places t).1, htoken, (View.lined_places t').1,
      show n.span.stop.line = n'.span.stop.line from hstop]
  all_goals cases hview

theorem trailingComments_alike (h : S.Holds s s') {n n' : Node} (hn : S.view.Alike n n') :
    S.view.comments (trailingComments s n).1 = S.view.comments (trailingComments s' n').1 ∧
      S.view.comments (trailingComments s n).2 = S.view.comments (trailingComments s' n').2 := by
  unfold trailingComments
  rw [h.config, h.config']
  by_cases hview : S.view.showsComments
  · rw [S.attaches hview]
    have hcomments := (comments_eq_iff hview).mp h.comments
    split
    · rw [List.partition_eq_filter_filter, List.partition_eq_filter_filter, comments_eq_iff hview,
        comments_eq_iff hview]
      refine ⟨List.rel_filter (fun t t' ht => trails_alike hview hn ht) hcomments,
        List.rel_filter (fun t t' ht => ?_) hcomments⟩
      show (!trails n t) = true ↔ (!trails n' t') = true
      rw [Bool.eq_iff_iff.mpr (trails_alike hview hn ht)]
    · exact ⟨rfl, h.comments⟩
  · have hnone := S.view.comments_eq hview
    exact ⟨hnone _ _, hnone _ _⟩

/-! ### Items -/

theorem Holds.skipSemicolons (h : S.Holds s s') (n : Nat) :
    S.Holds (skipSemicolons n s) (skipSemicolons n s') := by
  induction n generalizing s s' with
  | zero => exact h
  | succ n ih =>
    unfold Grammar.skipSemicolons
    rw [h.isAt]
    split
    · exact ih h.advance
    · exact h

theorem endsItems_alike (h : S.Holds s s') (context : Context) :
    endsItems context s = endsItems context s' := by
  rw [endsItems, endsItems, h.isAt, h.isAt]

theorem matches_itemProduction (h : S.Circles r) (hs : S.Holds s s') (context : Context) :
    S.Matches (itemProduction r context s) (itemProduction r context s') := by
  have hhere : atEnumerator s = atEnumerator s' := by
    rw [atEnumerator, atEnumerator, hs.isAt, hs.atTypeName]
  unfold itemProduction
  rw [hhere]
  split
  · exact matches_enumerator h
  · exact matches_statement h

/-- Both lists have got to related states, with statements that look alike. -/
def Reaches (S : Simulation) (found found' : List Node × State) : Prop :=
  AlikeItems S.view found.1 found'.1 ∧ S.Holds found.2 found'.2

theorem plainFinish_alike (hs : S.Holds s s') {leading leading' : List Token} {n n' : Node}
    (hleading : S.view.comments leading = S.view.comments leading') (hn : S.view.Alike n n') :
    S.view.Alike (plainFinish leading n s).1 (plainFinish leading' n' s').1 ∧
      S.Holds (plainFinish leading n s).2 (plainFinish leading' n' s').2 := by
  have hfinish {s s' : State} (hs : S.Holds s s') :
      S.view.Alike (n.modify fun d => { d with leading, trailing := (trailingComments s n).1 })
        (n'.modify fun d => { d with leading := leading', trailing := (trailingComments s' n').1 }) ∧
      S.Holds { s with comments := (trailingComments s n).2 }
        { s' with comments := (trailingComments s' n').2 } := by
    obtain ⟨htrailing, hwaiting⟩ := trailingComments_alike hs hn
    exact ⟨alike_comments hn hleading htrailing, hs.withComments hwaiting⟩
  unfold plainFinish
  rw [hs.isAt]
  split
  · exact hfinish hs.advance
  · exact hfinish hs

theorem recover_alike (hs : S.Holds s s') {e e' : SyntaxError} (he : S.view.Alike e e')
    (scope : ScopeId) : S.Reaches (recover e scope s) (recover e' scope s') := by
  have hclear := ((hs.record he).enter scope).withTemplate none
  have hname := (hs.record he).lookaside
  have hcleared := hclear.clearLookaside
  unfold recover
  dsimp only at hcleared hclear ⊢
  generalize (s.record e).lookaside = name at hname hclear ⊢
  generalize (s'.record e').lookaside = name' at hname hclear ⊢
  cases hname with
  | some hname => exact ⟨.of_alike (.cons hname .nil), hcleared⟩
  | none =>
    dsimp only
    rw [hclear.isAt, hclear.isAt]
    split
    · exact ⟨rfl, hclear⟩
    · exact ⟨rfl, hclear.advance⟩

theorem plainItem_alike (h : S.Circles r) (hs : S.Holds s s') (context : Context) :
    S.Reaches (plainItem r context s) (plainItem r context s') := by
  obtain ⟨hleading, hnodes⟩ := leadingComments_alike hs
  have hstandalone := hnodes.append (alikeItems_comments hleading)
  have hends := matches_itemProduction h hs context hs.clearComments
  unfold plainItem
  dsimp only
  change S.Ends S.view.Alike ((itemProduction r context s).run _) ((itemProduction r context s').run _)
    at hends
  generalize (itemProduction r context s).run _ = found at hends ⊢
  generalize (itemProduction r context s').run _ = found' at hends ⊢
  cases hends with
  | failure he ht =>
    rw [hs.symbols]
    obtain ⟨hrest, hu⟩ := recover_alike ht he s'.symbols.current
    exact ⟨hstandalone.append hrest, hu⟩
  | result hfound ht =>
    cases hfound with
    | none => exact ⟨hstandalone, (ht.record (ht.error _ _)).advance⟩
    | some hn =>
      obtain ⟨hn, hu⟩ := plainFinish_alike ht hleading hn
      exact ⟨hnodes.append (.of_alike (.cons hn .nil)), hu⟩

theorem plainAfter_alike (h : S.Circles r) (context : Context) (n : Nat) {ns ns' : List Node}
    (hns : AlikeItems S.view ns ns') (hs : S.Holds s s') :
    S.Reaches (plainAfter r context n ns s) (plainAfter r context n ns' s') := by
  induction n generalizing s s' ns ns' with
  | zero => exact ⟨hns, hs⟩
  | succ n ih =>
    have hskip := hs.skipSemicolons r.rounds
    unfold plainAfter
    dsimp only
    rw [endsItems_alike hskip]
    split
    · exact ⟨hns.append (alikeItems_comments hskip.comments), hskip.clearComments⟩
    · obtain ⟨hfound, hnext⟩ := plainItem_alike h hskip context
      exact ih (hns.append hfound) hnext

/-! ### All circles -/

theorem circles_plain (S : Simulation) (n : Nat) : S.Circles (plain n) := by
  induction n with
  | zero =>
    exact {
      expression := .fail _
      shift := .fail _
      steps := .fail _
      deref := .fail _
      invert := .fail _
      typeRef := .fail _
      statement := .fail _
      items := fun _ _ _ hs => .result rfl hs }
  | succ n h =>
    exact {
      expression := matches_expression h
      shift := matches_shift h
      steps := matches_steps h
      deref := matches_deref h
      invert := matches_invert h
      typeRef := matches_typeRef h .none
      statement := matches_statement h
      items := fun context s s' hs => by
        have hnil : AlikeItems S.view [] [] := rfl
        obtain ⟨hns, ht⟩ := plainAfter_alike h context (plain n).rounds hnil hs
        exact .result hns ht }

/-! ### Programs -/

/-- **Readings from related states give programs that look alike**, with the same symbols; the second
one has the first errors of the first one, as many as it may keep. Whether a newline lies before the
first token may differ. -/
theorem parse_alike_reline {source source' : String} {config config' : ParseConfig} {newline : Bool}
    (h : S.Holds (.start source config) ((State.start source' config').reline newline)) :
    let p := Program.parse source config
    let p' := Program.parse source' config'
    AlikeItems S.view p.nodes p'.nodes ∧
      S.view.Alike (keptErrors config'.maxErrors p.errors) p'.errors ∧ p.symbols = p'.symbols := by
  let m := max source.utf8ByteSize source'.utf8ByteSize + 1
  have hplain : (plain (m + 1)).items .file (.start source config) =
      (rules (Program.circles source)).items .file (.start source config) :=
    plain_start source config (by omega)
  have hplain' : (plain (m + 1)).items .file (.start source' config') =
      (rules (Program.circles source')).items .file (.start source' config') :=
    plain_start source' config' (by omega)
  have hreaches : S.Reaches ((plainItems (plain m) .file).run (.start source config))
      ((plainItems (plain m) .file).run ((State.start source' config').reline newline)) :=
    plainAfter_alike (circles_plain S m) .file (plain m).rounds rfl h
  obtain ⟨hnodes, hend⟩ := hreaches
  obtain ⟨hsame, herrors, hsymbols⟩ := plain_reline (plain m) source' config' newline
  have hconfig : S.config' = config' := h.config'.symm
  have hkept := hend.errors
  rw [hsame] at hnodes
  rw [herrors, hconfig] at hkept
  unfold Program.parse
  dsimp only
  rw [← hplain, ← hplain']
  exact ⟨hnodes, hkept, hend.symbols.trans hsymbols⟩

theorem parse_alike {source source' : String} {config config' : ParseConfig}
    (h : S.Holds (.start source config) (.start source' config')) :
    let p := Program.parse source config
    let p' := Program.parse source' config'
    AlikeItems S.view p.nodes p'.nodes ∧
      S.view.Alike (keptErrors config'.maxErrors p.errors) p'.errors ∧ p.symbols = p'.symbols := by
  rw [← State.reline_self (.start source' config')] at h
  exact parse_alike_reline h

end Simulation

end Grammar

end SableFront
