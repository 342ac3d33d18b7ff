import SableFront.Proofs.Defects.Token
import SableFront.Proofs.Survey.Reading

/-!
# Defects: every faulty node has its error

Where no limit is set to the errors, a node that does not stand for what it should comes with an
error that says so: one about the operand that is missing, the invalid text, the brace that is not
there, or the target that cannot be assigned to (`Reported`). So a program without errors is valid.

Such a node is made where the error about it is in hand, and has been kept before. Nodes that are
lost do no harm, and an attempt that is given up takes no errors with it but those kept since it
began, on which nothing that is in hand then depends.
-/

namespace SableFront

open Grammar

/-- What can be assigned to: a name, alone, dotted or declared, an index, or a dereference. -/
inductive IsTarget : Form → Prop
  | ident (i : Ident) : IsTarget (.ident i)
  | dotted : IsTarget .dotted
  | identDef (default : Bool) : IsTarget (.identDef default)
  | index : IsTarget .index
  | deref : IsTarget .deref

theorem isAssignable_iff (form : Form) : isAssignable form ↔ IsTarget form := by
  constructor
  · intro h
    cases form <;> first | cases h; done | constructor
  · rintro (_ | _ | _ | _ | _) <;> rfl

namespace Node

/-- The faults of a node are among the errors. -/
structure Reported (errors : List SyntaxError) (n : Node) : Prop where
  /-- An empty invalid node stands where an operand is missing. -/
  placeholder : n.form = .invalid → n.token.size = 0 →
    ∃ e ∈ errors, e.kind = .operatorWithNoRhs ∧ e.token.offset = n.token.offset
  /-- Any other invalid node stands for invalid text. -/
  text : n.form = .invalid → n.token.size ≠ 0 →
    ∃ e ∈ errors, e.kind = .invalidTokenSequence ∧ e.token = n.token
  /-- A block without its closing brace goes on to the end of the text. -/
  block : n.form = .block false → ∃ e ∈ errors, e.kind = .missingBlock ∧ e.token.isEof
  target : n.form = .assignment → ∀ target, n.children.head? = some target →
    ¬ IsTarget target.form → ∃ e ∈ errors, e.kind = .invalidAssignment ∧ e.token = n.token

/-- The faults of a node are among the errors, and there are errors if its anchor is invalid. -/
structure Noted (errors : List SyntaxError) (n : Node) : Prop extends Reported errors n where
  anchor : n.token.isValid ∨ errors ≠ []

variable {errors errors' : List SyntaxError} {m n : Node}

theorem Reported.mono (h : n.Reported errors) (hle : errors ⊆ errors') : n.Reported errors' where
  placeholder hform hsize :=
    (h.placeholder hform hsize).imp fun _ he => ⟨hle he.1, he.2⟩
  text hform hsize := (h.text hform hsize).imp fun _ he => ⟨hle he.1, he.2⟩
  block hform := (h.block hform).imp fun _ he => ⟨hle he.1, he.2⟩
  target hform target htarget hnone :=
    (h.target hform target htarget hnone).imp fun _ he => ⟨hle he.1, he.2⟩

theorem Noted.mono (h : n.Noted errors) (hle : errors ⊆ errors') : n.Noted errors' := by
  refine ⟨h.toReported.mono hle, h.anchor.imp_right fun hne hnil => hne ?_⟩
  exact List.subset_nil.mp (hnil ▸ hle)

theorem reported_of_isSound (h : n.form.isSound) : n.Reported errors := by
  constructor
  all_goals
    intro hform
    rw [hform] at h
    cases h

/-- An error about a faulty node says what is wrong with it. -/
theorem reported_of_isAbout {e : SyntaxError} (habout : e.IsAbout n.form n.token) (he : e ∈ errors)
    (htimely : IsTimely e)
    (hsize : n.form = .invalid → n.token.kind = .invalid → n.token.size ≠ 0) :
    n.Reported errors := by
  obtain ⟨⟨form, token, span, marks, leading, trailing⟩, children⟩ := n
  cases form with
  | invalid =>
    obtain ⟨hkind, htoken, hinvalid⟩ := habout
    exact ⟨fun _ hzero => absurd hzero (hsize rfl hinvalid), fun _ _ => ⟨e, he, hkind, htoken⟩,
      Form.noConfusion, Form.noConfusion⟩
  | block closed =>
    cases closed with
    | true => exact habout.elim
    | false =>
      exact ⟨Form.noConfusion, Form.noConfusion, fun _ => ⟨e, he, habout.1, htimely habout.2⟩,
        Form.noConfusion⟩
  | assignment =>
    exact ⟨Form.noConfusion, Form.noConfusion, Form.noConfusion, fun _ _ _ _ => ⟨e, he, habout⟩⟩
  | _ => exact habout.elim

/-- Only the form, the anchor and, of an assignment, the children matter. -/
theorem Noted.congr (h : m.Noted errors) (hform : n.form = m.form) (htoken : n.token = m.token)
    (hchildren : n.children = m.children) : n.Noted errors := by
  refine ⟨⟨?_, ?_, ?_, ?_⟩, htoken ▸ h.anchor⟩
  · rw [hform, htoken]
    exact h.placeholder
  · rw [hform, htoken]
    exact h.text
  · rw [hform]
    exact h.block
  · rw [hform, htoken, hchildren]
    exact h.target

/-- What a name is bound to does not matter. -/
theorem Noted.modifyIdent (h : n.Noted errors) (f : Ident → Ident) :
    (n.modifyIdent f).Noted errors := by
  obtain ⟨⟨form, token, span, marks, leading, trailing⟩, children⟩ := n
  cases form
  case ident => exact ⟨reported_of_isSound rfl, h.anchor⟩
  all_goals exact h

theorem noted_ofComment {t : Token} (h : t.isValid) : (ofComment t).Noted errors := by
  refine ⟨⟨?_, ?_, ?_, ?_⟩, .inl h⟩
  all_goals
    intro hform
    cases hform

mutual

/-- Where no error is kept, what is noted is valid. -/
theorem isValid_of_noted : ∀ n : Node, (∀ m ∈ n.walk, m.Noted []) → n.isValid
  | mk data children, h => by
    rw [walk] at h
    have hself := h _ List.mem_cons_self
    have hchildren := allValid_of_noted children fun m hm => h m (List.mem_cons_of_mem _ hm)
    have hanchor : data.token.isValid := hself.anchor.resolve_right fun hne => hne rfl
    rw [isValid, hchildren, hanchor, Bool.and_true, Bool.and_true]
    split
    · rename_i hform
      by_cases hsize : data.token.size = 0
      · obtain ⟨e, he, -⟩ := hself.placeholder hform hsize
        cases he
      · obtain ⟨e, he, -⟩ := hself.text hform hsize
        cases he
    · rename_i closed hform
      cases closed with
      | true => rfl
      | false =>
        obtain ⟨e, he, -⟩ := hself.block hform
        cases he
    · rfl

theorem allValid_of_noted : ∀ ns : List Node, (∀ m ∈ walkAll ns, m.Noted []) → allValid ns
  | [], _ => rfl
  | n :: ns, h => by
    rw [walkAll] at h
    have hfirst := isValid_of_noted n fun m hm => h m (List.mem_append_left _ hm)
    have hothers := allValid_of_noted ns fun m hm => h m (List.mem_append_right _ hm)
    rw [allValid, hfirst, hothers]
    rfl

end

end Node

namespace Grammar

open Node

/-! ### The survey of faults -/

/-- The errors that are in hand have been kept, those of missing braces are at the end of the text,
tokens are well made and valid where no error is kept, and the faults of nodes are noted. -/
structure Noting (ps : List Piece) (s : State) : Prop where
  unlimited : s.config.maxErrors = none
  wellMade : s.current.WellMade
  comments : ∀ t ∈ s.comments, t.isValid
  errors : ∀ e, .error e ∈ ps → e ∈ s.errors ∧ IsTimely e
  pieces : Piece.AllFit (fun _ t => t.WellMade ∧ (t.isValid ∨ s.errors ≠ [])) (Noted s.errors) ps

/-- The survey of faults. Lists are read to their end, since an error about a missing brace has to be
there. -/
def noting : Survey := ⟨fun _ => True, Noting, Noting, True⟩

theorem isValid_of_isComment {t : Token} (h : t.kind.isComment) : t.isValid := by
  unfold Token.isValid
  cases hkind : t.kind
  case invalid =>
    rw [hkind] at h
    cases h
  all_goals rfl

variable {ps qs rs : List Piece} {s t : State} {n : Node} {use : Use} {e : SyntaxError}

/-- **A node that is made is noted** where the errors in hand are kept, the tokens are well made and
the other nodes are noted. -/
theorem noted_of_makes {table : SymbolTable} {errors : List SyntaxError} (h : Makes table ps n)
    (herrors : ∀ e, .error e ∈ ps → e ∈ errors ∧ IsTimely e)
    (htokens : ∀ use t, .token use t ∈ ps → t.WellMade ∧ (t.isValid ∨ errors ≠ []))
    (hnodes : ∀ k, .node k ∈ ps → k.Noted errors) : n.Noted errors := by
  cases h with
  | @build ps form anchor marks spans hps hspans =>
    have hanchor : anchor.isValid ∨ errors ≠ [] := by
      rcases Piece.mem_anchors.mp hps.mem with ⟨use, ht⟩ | ⟨k, hk, rfl⟩
      · exact (htokens use anchor ht).2
      · exact (hnodes k hk).anchor
    refine ⟨?_, hanchor⟩
    cases hps.sound with
    | proper hsound => exact reported_of_isSound hsound
    | target hform htarget =>
      subst hform
      refine ⟨Form.noConfusion, Form.noConfusion, Form.noConfusion, fun _ target hhead hnone => ?_⟩
      exact absurd ((isAssignable_iff _).mp (htarget target hhead)) hnone
    | @faulty e he habout =>
      obtain ⟨hkept, htimely⟩ := herrors e he
      refine reported_of_isAbout habout hkept htimely fun (hform : form = .invalid) hinvalid => ?_
      rcases Piece.mem_anchors.mp hps.mem with ⟨use, ht⟩ | ⟨k, hk, -⟩
      · exact (htokens use anchor ht).1.size hinvalid
      · have hnone := hps.filled 0 (hform ▸ rfl)
        rw [List.length_eq_zero_iff] at hnone
        exact absurd (hnone ▸ Piece.mem_nodes.mpr hk) List.not_mem_nil
  | @literal t hliteral =>
    obtain ⟨hmade, hvalid⟩ := htokens .shown t List.mem_cons_self
    refine ⟨⟨fun hform => absurd hform (hmade.literal hliteral),
      fun hform => absurd hform (hmade.literal hliteral), ?_, ?_⟩, hvalid⟩
    all_goals
      intro hform
      simp only [Node.ofLiteral, Node.leaf, Node.build, Node.form, Node.data] at hform
      split at hform <;> cases hform
  | enclosed k | marked k | markedFirst _ k | commented _ _ k =>
    exact (hnodes k (by simp)).congr rfl rfl rfl
  | extended base part hbase =>
    refine ⟨reported_of_isSound ?_, (hnodes base (by simp)).anchor⟩
    change base.form.isSound
    rw [hbase]
    rfl
  | @bound k f => exact (hnodes k (by simp)).modifyIdent f

namespace Noting

theorem congr (h : Noting ps s) (hlexer : t.lexer = s.lexer) (herrors : t.errors = s.errors)
    (hcomments : t.comments ⊆ s.comments) (hconfig : t.config = s.config) : Noting ps t := by
  have hcurrent : t.current = s.current := congrArg Lexer.token hlexer
  exact ⟨hconfig ▸ h.unlimited, hcurrent ▸ h.wellMade, fun c hc => h.comments c (hcomments hc),
    herrors ▸ h.errors, herrors ▸ h.pieces⟩

theorem subset (h : Noting ps s) (hqs : qs ⊆ ps) : Noting qs s :=
  ⟨h.unlimited, h.wellMade, h.comments, fun e he => h.errors e (hqs he), h.pieces.subset hqs⟩

theorem mind (h : Noting (ps ++ qs) s) {p : Piece} (hp : p.isMental)
    (he : ∀ e, p = .error e → e ∈ s.errors ∧ IsTimely e) : Noting (ps ++ p :: qs) s := by
  refine ⟨h.unlimited, h.wellMade, h.comments, fun e hmem => ?_, h.pieces.mind hp⟩
  simp only [List.mem_append, List.mem_cons] at hmem
  rcases hmem with hmem | heq | hmem
  · exact h.errors e (by simp [hmem])
  · exact he e heq.symm
  · exact h.errors e (by simp [hmem])

/-- A token is passed. -/
theorem pass (h : Noting ps s) : Noting ps s.advance := by
  unfold State.advance
  split
  · exact h
  · refine ⟨h.unlimited, Cursor.wellMade_significant _, fun t ht => ?_, h.errors, h.pieces⟩
    rcases List.mem_append.mp ht with ht | ht
    · exact h.comments t ht
    · exact isValid_of_isComment (Cursor.isComment_of_mem_comments ht)

/-- The current token is passed and in hand. -/
theorem advance (h : Noting ps s) (hvalid : s.current.isValid ∨ s.errors ≠ []) :
    Noting (ps ++ [.token use s.current]) s.advance := by
  obtain ⟨hunlimited, hmade, hcomments, herrors, hpieces⟩ := h.pass
  refine ⟨hunlimited, hmade, hcomments, fun e he => herrors e ?_, hpieces.push ⟨h.wellMade, ?_⟩⟩
  · exact (List.mem_append.mp he).resolve_right fun he => Piece.noConfusion (List.mem_singleton.mp he)
  · rwa [s.errors_advance]

/-- The first `>` of the current token is read alone. -/
theorem split (h : Noting ps s) (hs : isClosingAngle s.current.kind) :
    Noting ps { s with lexer := s.lexer.splitAngle?.getD s.lexer } := by
  have hkind := Survey.kind_splitAngle hs
  refine ⟨h.unlimited, Token.wellMade_of_kind ?_ ?_, h.comments, h.errors, h.pieces⟩
  · exact hkind ▸ rfl
  · exact hkind ▸ Kind.noConfusion

/-- An error that is kept leaves what is noted as it is. -/
theorem record (h : Noting ps s) (e : SyntaxError) : Noting ps (s.record e) := by
  have herrors := s.errors_record e h.unlimited
  have hsubset : s.errors ⊆ (s.record e).errors := herrors ▸ List.subset_append_left _ _
  have hcurrent : (s.record e).current = s.current := congrArg Lexer.token (s.lexer_record e)
  refine ⟨?_, hcurrent ▸ h.wellMade, ?_, fun d hd => (h.errors d hd).imp_left (@hsubset d),
    fun use t ht => ⟨(h.pieces.tokens use t ht).1, .inr ?_⟩,
    h.pieces.nodes.mono fun _ hm => hm.mono hsubset⟩
  · rw [State.config_record]
    exact h.unlimited
  · rw [State.comments_record]
    exact h.comments
  · rw [herrors]
    exact List.append_ne_nil_of_right_ne_nil _ (List.cons_ne_nil _ _)

/-- A missing operand is noted by the error in hand. -/
theorem missing (h : Noting (ps ++ [.error e]) s) (hkind : e.kind = .operatorWithNoRhs)
    (htoken : e.token = s.current) : Noting (ps ++ [.node s.placeholder]) s := by
  have hkept : e ∈ s.errors := (h.errors e (by simp)).1
  have hoffset : e.token.offset = s.current.offset := congrArg Token.offset htoken
  have hnoted : s.placeholder.Noted s.errors := by
    refine ⟨⟨fun _ _ => ⟨e, hkept, hkind, hoffset⟩,
      fun _ hsize => absurd rfl hsize, Form.noConfusion, Form.noConfusion⟩,
      .inr (List.ne_nil_of_mem hkept)⟩
  have hps := h.subset (List.subset_append_left ps _)
  refine ⟨h.unlimited, h.wellMade, h.comments, fun d hd => hps.errors d ?_,
    hps.pieces.pushLeaf hnoted⟩
  exact (List.mem_append.mp hd).resolve_right fun hd => Piece.noConfusion (List.mem_singleton.mp hd)

/-- A node takes the place of the pieces that it is made from. -/
theorem make (h : Noting (ps ++ (qs ++ rs)) s) (hn : Makes s.symbols qs n) :
    Noting (ps ++ .node n :: rs) s := by
  refine ⟨h.unlimited, h.wellMade, h.comments, fun e he => h.errors e ?_,
    h.pieces.make hn (noted_of_makes hn fun e he => h.errors e (by simp [he]))⟩
  simp only [List.mem_append, List.mem_cons, reduceCtorEq, false_or] at he ⊢
  exact he.imp_right .inr

/-- Comments are nothing that could be faulty. -/
theorem collect (h : Noting ps s) {taken waiting : List Token} (htaken : taken ⊆ s.comments)
    (hwaiting : waiting ⊆ s.comments) :
    Noting (ps ++ taken.map .comment) { s with comments := waiting } := by
  refine ⟨h.unlimited, h.wellMade, fun c hc => h.comments c (hwaiting hc), fun e he => h.errors e ?_,
    h.pieces.collect fun t ht => noted_ofComment (h.comments t (htaken ht))⟩
  refine (List.mem_append.mp he).resolve_right fun he => ?_
  obtain ⟨c, -, hc⟩ := List.mem_map.mp he
  cases hc

/-- Where reading goes back, the errors are those that were there before. -/
theorem rewind (h : Noting ps s) (ht : Noting ps t) (herrors : s.errors <+: t.errors) :
    Noting ps (t.rewind s) := by
  have hsame : (t.rewind s).errors = s.errors := (List.prefix_iff_eq_take.mp herrors).symm
  exact ⟨ht.unlimited, h.wellMade, fun c hc => ht.comments c (List.mem_of_mem_take hc),
    hsame ▸ h.errors, hsame ▸ h.pieces⟩

theorem halted (h : Noting ps s) : Noting ps s.halted := by
  have hrecord := h.record (s.error .unreachableState none)
  exact ⟨hrecord.unlimited, Token.wellMade_eof _ _, List.forall_mem_nil _, hrecord.errors,
    hrecord.pieces⟩

end Noting

theorem complete_noting : noting.Complete where
  breaks h := h
  fit_current _ := trivial
  fit _ _ := trivial
  congr h hlexer herrors hcomments _ hconfig :=
    Noting.congr h hlexer herrors (hcomments ▸ List.Subset.refl _) hconfig
  breaks_congr h hlexer herrors hcomments _ hconfig :=
    Noting.congr h hlexer herrors (hcomments ▸ List.Subset.refl _) hconfig
  tidy h hqs := Noting.subset h hqs.sublist.subset
  lose h hqs := Noting.subset h hqs.subset
  mind h hp hnone := Noting.mind h hp fun e he => absurd he (hnone e)
  note {ps e s} h hkept htimely := by
    have hall : Noting (ps ++ []) s := (List.append_nil ps).symm ▸ h
    refine hall.mind rfl fun d hd => ?_
    cases hd
    exact ⟨hkept hall.unlimited, htimely trivial⟩
  advance {ps s use} h huse := by
    refine Noting.advance h (.inl (bne_iff_ne.mpr fun hinvalid => ?_))
    rw [hinvalid] at huse
    cases huse
  junk h _ he := Noting.advance h (.inr (List.ne_nil_of_mem (Noting.errors h _ he).1))
  close {ps s} h hs := by
    refine (Noting.split h hs).advance (.inl ?_)
    exact bne_iff_ne.mpr ((Survey.kind_splitAngle hs).trans_ne Kind.noConfusion)
  record h _ := Noting.record h _
  missing h hkind htoken := Noting.missing h hkind htoken
  make h hn := Noting.make h hn
  operate h _ _ := Noting.congr h rfl rfl (List.Subset.refl _) rfl
  breaks_operate h _ _ := Noting.congr h rfl rfl (List.Subset.refl _) rfl
  stop h _ := Noting.pass h
  pass h _ := (Noting.record h _).pass
  collect h hperm := Noting.collect h (fun _ hc => hperm.subset (List.mem_append_left _ hc))
    fun _ hc => hperm.subset (List.mem_append_right _ hc)
  halted _ h := Noting.halted h

/-- All reading notes all faults. -/
theorem whole_noting (n : Nat) : noting.Whole (Survey.halting n) := by
  have hback : noting.GoesBack fun _ _ => True := fun _ _ _ h ht herrors _ => Noting.rewind h ht herrors
  exact Survey.whole_halting complete_noting trivial (fun _ h => h.attempt hback)
    (fun _ h => h.attempt hback) n

/-- Nothing has been read at the start of a text, so nothing is faulty. -/
theorem noting_start (source : String) {config : ParseConfig} (h : config.maxErrors = none) :
    Noting [] (State.start source config) := by
  refine ⟨h, Cursor.wellMade_significant _, fun t ht => ?_,
    fun _ he => absurd he List.not_mem_nil, .nil⟩
  exact isValid_of_isComment (Cursor.isComment_of_mem_comments ht)

end Grammar

open Grammar

/-- **No fault is passed over in silence.** Without a limit to the errors, every node of a program
that is not as it should be has its error: an empty invalid node one about a missing operand at its
place, any other invalid node one about its text, a block without its closing brace one at the end
of the text, and an assignment to what cannot be assigned to one at its operator. So all nodes of a
program without errors are valid. -/
theorem faults_are_reported (source : String) (config : ParseConfig)
    (h : config.maxErrors = none) :
    (∀ n ∈ Node.walkAll (Program.parse source config).nodes,
      n.Reported (Program.parse source config).errors) ∧
    ((Program.parse source config).errors = [] →
      ∀ n ∈ (Program.parse source config).nodes, n.isValid) := by
  have hstart : noting.Holds [] (State.start source config) := noting_start source h
  have hend := Survey.ended_file (whole_noting _) trivial hstart
  have hnoting : Noting _ _ := hend.laid.holds
  have hnoted (n : Node) (hn : n ∈ Node.walkAll (Program.parse source config).nodes) :
      n.Noted (Program.parse source config).errors := (hnoting.pieces.nodes.walkAll hn).self
  refine ⟨fun n hn => (hnoted n hn).toReported, fun herrors n hn => ?_⟩
  refine Node.isValid_of_noted n fun m hm => ?_
  have hall := hnoted m (Node.mem_walkAll hn hm)
  rwa [herrors] at hall

/-- A text with every kind of fault, and one with none. -/
theorem faults_are_reported_at_once :
    let faulty := Program.parse "1 = ; \x7b 2 + ; @" .standard
    let sound := Program.parse "if 1 { x = [2]; }" .standard
    (faulty.errors.map (·.kind) = [.operatorWithNoRhs, .invalidAssignment, .operatorWithNoRhs,
        .invalidTokenSequence, .missingBlock] ∧
      ∀ n ∈ Node.walkAll faulty.nodes, n.Reported faulty.errors) ∧
    (sound.nodes ≠ [] ∧ ∀ n ∈ sound.nodes, n.isValid) := by
  refine ⟨⟨by decide +kernel, (faults_are_reported _ .standard rfl).1⟩, ?_, ?_⟩
  · exact List.ne_nil_of_length_pos (by decide +kernel)
  · exact (faults_are_reported _ .standard rfl).2 (by decide +kernel)

end SableFront
