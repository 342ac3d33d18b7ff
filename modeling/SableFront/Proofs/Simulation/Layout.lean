import SableFront.Proofs.Simulation.Attachment
import SableFront.Proofs.Simulation.Sign
import SableFront.Tree.Render

/-!
# Simulation: layout

Where tokens stand, how much lies between them and what comments say there makes no difference to a
program; only whether there is a newline does, and that not before the first token. So two texts
with the same signs are read as the same program, as far as its text, its errors and its symbols go.
-/

namespace SableFront

namespace Node

/-! ### The text of trees that look alike -/

theorem head_congr {n n' : Node} (hform : n.form = n'.form)
    (hkind : n.token.kind = n'.token.kind) : n.head = n'.head := by
  rw [head, head, tag, tag, hform, hkind]

theorem parts_congr {d d' : NodeData} (hform : d.form = d'.form)
    (htoken : d.token.describe = d'.token.describe)
    (hmarks : d.marks.map Token.describe = d'.marks.map Token.describe) (children : List String) :
    parts d children = parts d' children := by
  have hmark : d.marks.head?.map Token.describe = d'.marks.head?.map Token.describe := by
    rw [← List.head?_map, ← List.head?_map, hmarks]
  unfold parts
  rw [hform, htoken, hmarks, hmark]

mutual

/-- The text of a tree without comments is seen even in the barest view. -/
theorem render_stripped_seen : (n : Node) → (n.seen .bare).stripped.render = n.stripped.render
  | mk data children => by
    have htoken (t : Token) : (View.bare.token t).describe = t.describe := rfl
    have hmarks : (data.marks.map (View.token .bare)).map Token.describe =
        data.marks.map Token.describe := by
      rw [List.map_map]
      exact List.map_congr_left fun t _ => htoken t
    rw [seen, stripped, stripped, render, render, renderAll_strippedAll_seenAll _ children]
    refine congrArg₂ group (head_congr rfl rfl) (parts_congr ?_ ?_ ?_ _)
    · rfl
    · exact htoken data.token
    · exact hmarks

theorem renderAll_strippedAll_seenAll (b : Bool) :
    (ns : List Node) → renderAll (strippedAll (seenAll .bare b ns)) = renderAll (strippedAll ns)
  | [] => rfl
  | n :: ns => by
    have hcomment : (n.seen .bare).isComment = n.isComment := by
      rw [isComment, isComment, form_seen]
    have ih := renderAll_strippedAll_seenAll b ns
    rw [seenAll, strippedAll]
    cases hn : n.isComment
    · rw [Bool.and_false, if_neg Bool.false_ne_true, if_neg Bool.false_ne_true, strippedAll,
        hcomment, hn, if_neg Bool.false_ne_true, renderAll, renderAll, render_stripped_seen n, ih]
    · rw [if_pos rfl]
      split
      · exact ih
      · rw [strippedAll, hcomment, hn, if_pos rfl, ih]

end

theorem renderAll_eq_map (ns : List Node) : renderAll ns = ns.map render := by
  induction ns with
  | nil => rfl
  | cons n ns ih => rw [renderAll, List.map_cons, ih]

theorem AlikeItems.render_eq {ns ns' : List Node} (h : AlikeItems .bare ns ns') :
    (strippedAll ns).map render = (strippedAll ns').map render := by
  rw [← renderAll_eq_map, ← renderAll_eq_map, ← renderAll_strippedAll_seenAll true ns,
    ← renderAll_strippedAll_seenAll true ns']
  exact congrArg (fun ns => renderAll (strippedAll ns)) h

end Node

/-- Errors that look alike have the same kinds and messages. -/
theorem messages_alike {es es' : List SyntaxError} (h : View.bare.Alike es es') :
    es.map (fun e => (e.kind, e.message)) = es'.map fun e => (e.kind, e.message) := by
  induction h with
  | nil => rfl
  | @cons e e' es es' he _ ih =>
    obtain ⟨hkind, -, hreason⟩ := he
    replace hreason : e.reason = e'.reason := hreason
    rw [List.map_cons, List.map_cons, ih, SyntaxError.message, SyntaxError.message, hkind, hreason]

namespace Grammar.Simulation

/-! ### Two texts with the same signs -/

/-- Texts with the same signs are read, the first one with all errors kept. -/
def ofSigns (config : ParseConfig) : Simulation where
  view := .bare
  config := { config with maxErrors := none }
  config' := config
  lexer := Lexer.SameSigns
  unlimited := rfl
  speculates := rfl
  attaches := nofun
  token := Lexer.SameSigns.token
  next h := by
    have hahead {l : Lexer} (h : l.IsLoose) : (l.cursor.tokens.map Token.kind).IsChain Loose := h.tail
    obtain ⟨hlexer, hnewline⟩ :=
      Lexer.sameSigns_significant h.signs (hahead h.loose) (hahead h.loose')
    exact ⟨hlexer, Option.some.inj hnewline, rfl⟩
  split := Lexer.SameSigns.split

/-- Where both lexers come to the same sign, the newlines before it may differ. -/
theorem holds_bump {S : Simulation} {s s' : State}
    (hlexer : S.lexer s.lexer.cursor.significant.lexer s'.lexer.cursor.significant.lexer)
    (hcomments : S.view.comments s.bump.comments = S.view.comments s'.bump.comments)
    (hsymbols : s.symbols = s'.symbols)
    (herrors : S.view.Alike (keptErrors S.config'.maxErrors s.errors) s'.errors)
    (hlookaside : S.view.Alike s.lookaside s'.lookaside)
    (htemplate : s.templateScope = s'.templateScope) (hconfig : s.config = S.config)
    (hconfig' : s'.config = S.config') :
    S.Holds s.bump (s'.bump.reline s.bump.newlineBefore) :=
  ⟨hlexer, rfl, hsymbols, herrors, hlookaside, hcomments, htemplate, hconfig, hconfig'⟩

theorem holds_ofSigns {source source' : String} (config : ParseConfig) (h : Separated source)
    (h' : Separated source') (hsigns : signs source = signs source') :
    ∃ newline, (ofSigns config).Holds (.start source { config with maxErrors := none })
      ((State.start source' config).reline newline) := by
  have hloose {source : String} (h : Separated source) :
      ((tokenize source).map Token.kind).IsChain Loose := h.imp fun _ _ hk => hk.loose
  have hlexer := (Lexer.sameSigns_significant hsigns (hloose h) (hloose h')).1
  have hnone : (ofSigns config).view.Alike (keptErrors config.maxErrors []) [] := by
    rw [keptErrors_nil]
    exact .nil
  exact ⟨_, holds_bump hlexer rfl rfl hnone .none rfl rfl rfl⟩

end Grammar.Simulation

namespace Program

open Grammar.Simulation

/-- **Layout does not matter.** Two texts that have trivia between their significant tokens and whose
signs are the same, which leaves open where tokens stand, what comments there are, and how a text
starts, give trees with the same text but for their comments, errors of the same kinds with the same
messages, and the same symbol table, with any options. -/
theorem layout_does_not_matter (source source' : String) (config : ParseConfig)
    (hsource : Separated source) (hsource' : Separated source')
    (hsigns : signs source = signs source') :
    let p := parse source config
    let p' := parse source' config
    (Node.strippedAll p.nodes).map Node.render = (Node.strippedAll p'.nodes).map Node.render ∧
      p.errors.map (fun e => (e.kind, e.message)) = p'.errors.map (fun e => (e.kind, e.message)) ∧
      p.symbols = p'.symbols := by
  obtain ⟨newline, hstart⟩ := holds_ofSigns config hsource hsource' hsigns
  obtain ⟨hnodes, herrors, hsymbols⟩ := parse_alike_reline hstart
  dsimp only
  rw [parse_limit source config]
  exact ⟨hnodes.render_eq, messages_alike herrors, hsymbols⟩

/-- A token of two `>` that is split, in two layouts. -/
theorem layout_of_nested_generics :
    let source := "Int32 < Char < Bool >> c // one\nreturn c"
    let source' := "\n/* two */Int32 <\tChar < Bool >>/**/c\n\n return c "
    let p := parse source .standard
    let p' := parse source' .standard
    Separated source ∧ Separated source' ∧ signs source = signs source' ∧
      (Node.strippedAll p.nodes).map Node.render = (Node.strippedAll p'.nodes).map Node.render ∧
      p.errors.map (fun e => (e.kind, e.message)) = p'.errors.map (fun e => (e.kind, e.message)) ∧
      p.symbols = p'.symbols := by
  intro source source' p p'
  have hsource : Separated source := by decide +kernel
  have hsource' : Separated source' := by decide +kernel
  have hsigns : signs source = signs source' := by decide +kernel
  exact ⟨hsource, hsource', hsigns,
    layout_does_not_matter source source' .standard hsource hsource' hsigns⟩

end Program

end SableFront
