import SableFront.Proofs.RoundTrip.TypeReference
import SableFront.Proofs.Spaced.Program

/-!
# Round trip: declarations of typed variables

A declaration of a variable, whose type is a type term and whose name means nothing yet, is read as
one node, which says the name and the type (`declaration_gives_back_type`).
-/

namespace SableFront

open Grammar TypeTerm

namespace Grammar

variable {P : SymbolTable → Prop} {s : State}

/-! ### Declarations -/

section Declarations

variable {gap : TypeTerm → Nat} {t : TypeTerm} {r : Rules} {x : String}

theorem findIn_initial (hx : IsUnbound x) :
    SymbolTable.initial.findIn SymbolTable.initial.current x = none := by
  have hfind := find_initial hx
  rw [SymbolTable.find, SymbolTable.findFrom] at hfind
  unfold SymbolTable.findIn
  cases hscope : SymbolTable.initial.scope? SymbolTable.initial.current with
  | none => rfl
  | some scope =>
    rw [hscope] at hfind
    cases hget : scope.get? x with
    | none => exact hget
    | some id =>
      simp only [hget] at hfind
      cases hfind

/-- A name that means nothing is declared without complaint. -/
theorem leads_declare (hx : IsUnbound x) (token : Token) {symbol : Symbol} (hname : symbol.name = x)
    (role : Role) {cs : List Char} :
    Leads (Faces IsFresh cs)
      (declare (.name x token) symbol SymbolTable.initial.current role)
      (Faces (fun _ => True) cs) fun found => found.1.ident?.map Ident.name = some x := by
  intro s hs
  have hsymbols : s.symbols = .initial := hs.symbols
  have hident (id : SymbolId) :
      (((Node.name x token).attach id symbol role).declared).ident?.map Ident.name = some x := rfl
  unfold declare
  rw [meets_get, hsymbols, SymbolTable.addIn, hname, findIn_initial hx]
  dsimp only
  rw [meets_set]
  exact .pure ⟨hident _, hs.withSymbols _⟩

theorem leads_shareMembers (id : Option SymbolId) (members : Option ScopeId) {cs : List Char} :
    Leads (Faces (fun _ => True) cs) (shareMembers id members) (Faces (fun _ => True) cs)
      fun _ => True := by
  intro s hs
  unfold shareMembers
  split
  · exact .result _ _ rfl rfl ⟨trivial, hs.withSymbols _⟩
  · exact .pure ⟨trivial, hs⟩

theorem isAt_semicolon (h : Faces P [';'] s) (k : Kind) :
    s.isAt k = (Kind.punctuation .semicolon == k) :=
  h.isAt (w := .mark .semicolon) (Word.semicolon_before []) k

theorem head_semicolon : ∀ d ∈ [';'].head?, Lexeme.isWordChar d = false :=
  fun _ hd => Option.some.inj hd ▸ rfl

theorem leads_typedVariable (hx : IsName x) (hunbound : IsUnbound x) {type : Node}
    (htype : type.typeTerm? = some t) :
    Leads (Faces IsFresh (x.toList ++ [';'])) (typedVariable r type)
      (Faces (fun _ => True) [';']) (·.Declares x t) := by
  have hident : Leads (Faces IsFresh (x.toList ++ [';'])) expectIdent (Faces IsFresh [';'])
      fun found => found.1 = x := by
    intro s hs
    have hbefore := Word.name_before hx head_semicolon
    have hword : Faces IsFresh ((Word.name x).text.toList ++ [';']) s := hs
    have hrun := outcome_expectIdent s
    rw [hword.isAt hbefore, if_pos (by rfl)] at hrun
    refine .result _ _ hrun hrun ⟨?_, hword.advance hbefore⟩
    rw [Token.text?, (hword.word hbefore).2.1]
    rfl
  refine hident.bind fun found hfound => ?_
  obtain ⟨text, token⟩ := found
  dsimp only at hfound
  subst hfound
  refine Leads.get.bind fun s hs => ?_
  have hsymbols : s.symbols = .initial := hs.symbols
  dsimp only
  rw [hsymbols]
  refine (leads_declare hunbound token rfl _).bind fun found hname => ?_
  obtain ⟨name, id⟩ := found
  refine (leads_shareMembers id _).bind fun _ _ => ?_
  refine (leads_eat_none fun s hs => isAt_semicolon hs _).bind fun op hop => ?_
  subst hop
  exact .pure ⟨rfl, type, name, rfl, htype, hname⟩

theorem leads_declaration (hx : IsName x) (hunbound : IsUnbound x)
    (ht : ReadsType gap (typeRef r none) t) :
    Leads (Faces IsFresh ((t.render gap).toList ++ (' ' :: (x.toList ++ [';']))))
      (declaration r none) (Faces (fun _ => True) [';'])
      fun found => ∃ n, found = some n ∧ n.Declares x t := by
  refine (ht (follows_name hx head_semicolon)).bind fun found hfound => ?_
  obtain ⟨type, rfl, htype⟩ := hfound
  have hident (s : State) (hs : Faces IsFresh (' ' :: (x.toList ++ [';'])) s) : s.isAt .ident := by
    have hword : Faces IsFresh ((Word.name x).text.toList ++ [';']) s := hs.pastBlank
    rw [hword.isAt (Word.name_before hx head_semicolon)]
    rfl
  refine (leads_isAt hident).bind fun atIdent hat => ?_
  rw [hat, if_pos rfl]
  have hvariable := (leads_typedVariable (r := r) hx hunbound htype).mono fun n hn =>
    (⟨n, rfl, hn⟩ : ∃ m, some n = some m ∧ m.Declares x t)
  exact .map (hvariable.start fun s hs => hs.pastBlank)

theorem leads_statement (hx : IsName x) (hunbound : IsUnbound x)
    (ht : ReadsType gap (typeRef r none) t) :
    Leads (Faces IsFresh ((t.render gap).toList ++ (' ' :: (x.toList ++ [';'])))) (statement r)
      (Faces (fun _ => True) [';']) fun found => ∃ n, found = some n ∧ n.Declares x t := by
  obtain ⟨b, behind, htext, hw⟩ := starts_with_type gap t (follows_name hx head_semicolon)
  have hname : Leads (Faces IsFresh ((t.render gap).toList ++ (' ' :: (x.toList ++ [';']))))
      (nameStatement r) (Faces (fun _ => True) [';'])
      fun found => ∃ n, found = some n ∧ n.Declares x t := by
    refine Leads.get.bind fun s hs => ?_
    rw [if_pos (hs.of_type (follows_name hx head_semicolon)).1]
    refine (leads_declaration hx hunbound ht).orRewind.bind fun found hfound => ?_
    obtain ⟨n, rfl, hn⟩ := hfound
    exact .pure ⟨n, rfl, hn⟩
  refine leads_current.bind fun token htoken => ?_
  obtain ⟨s, hs, rfl⟩ := htoken
  rw [htext] at hs
  rw [(hs.word hw).1]
  -- only `none` is a keyword
  cases b <;> exact hname

theorem Faces.isLast (h : Faces P [';'] s) : s.IsLast := by
  have hsemicolon : s.isAt (.punctuation .semicolon) := isAt_semicolon h _
  have hafter : Faces P [] s.pastSemicolon := by
    rw [State.pastSemicolon, if_pos hsemicolon]
    exact h.advance (w := .mark .semicolon) (Word.semicolon_before [])
  exact ⟨hafter.isAt_eof, hafter.comments⟩

end Declarations

/-! ### Texts without slashes -/

theorem slash_intercalate {texts : List (List Char)} (h : ∀ cs ∈ texts, '/' ∉ cs) :
    '/' ∉ [',', ' '].intercalate texts := by
  induction texts with
  | nil => exact List.not_mem_nil
  | cons cs texts ih =>
    obtain ⟨hcs, hmore⟩ := List.forall_mem_cons.mp h
    cases texts with
    | nil => rwa [List.intercalate_singleton]
    | cons ds texts =>
      rw [List.intercalate_cons_cons, List.mem_append, List.mem_append]
      rintro ((hmem | hmem) | hmem)
      · exact hcs hmem
      · exact absurd hmem (by decide)
      · exact ih hmore hmem

theorem slash_angled {texts : List String} (h : ∀ text ∈ texts, '/' ∉ text.toList) (blanks : Nat) :
    '/' ∉ (angled blanks texts).toList := by
  cases texts with
  | nil => exact List.not_mem_nil
  | cons text more =>
    have hlist : '/' ∉ [',', ' '].intercalate ((text :: more).map String.toList) :=
      slash_intercalate (List.forall_mem_map.mpr h)
    rw [angled]
    simp only [String.toList_append, String.toList_intercalate, String.toList_ofList,
      List.mem_append, not_or]
    refine ⟨⟨⟨by decide, hlist⟩, fun hmem => ?_⟩, by decide⟩
    exact absurd (List.eq_of_mem_replicate hmem) (by decide)

theorem slash_trailed (marks : List TypeMark) : '/' ∉ (trailed marks).toList := by
  induction marks with
  | nil => exact List.not_mem_nil
  | cons m marks ih =>
    have hm : '/' ∉ m.operator.spelling.toList := by cases m <;> decide
    rw [toList_trailed_cons, List.mem_cons, List.mem_append]
    rintro (hmem | hmem | hmem)
    · cases hmem
    · exact hm hmem
    · exact ih hmem

mutual

theorem slash_render (gap : TypeTerm → Nat) : (t : TypeTerm) → '/' ∉ (t.render gap).toList
  | mk b args marks => by
    have hb : '/' ∉ b.spelling.toList := by cases b <;> decide
    rw [render, String.toList_append, String.toList_append, List.mem_append, List.mem_append]
    rintro ((hmem | hmem) | hmem)
    · exact hb hmem
    · exact slash_angled (slash_renderAll gap args) _ hmem
    · exact slash_trailed marks hmem

theorem slash_renderAll (gap : TypeTerm → Nat) :
    (ts : List TypeTerm) → ∀ text ∈ renderAll gap ts, '/' ∉ text.toList
  | [] => by
    rw [renderAll]
    exact List.forall_mem_nil _
  | t :: ts => by
    rw [renderAll]
    exact List.forall_mem_cons.mpr ⟨slash_render gap t, slash_renderAll gap ts⟩

end

theorem slash_name {x : String} (hx : IsName x) : '/' ∉ x.toList := by
  obtain ⟨c, cs, htext, hstart, hall⟩ := hx.word
  rw [htext, List.mem_cons]
  rintro (rfl | hmem)
  · exact absurd hstart (by decide)
  · exact absurd (List.all_eq_true.mp hall _ hmem) (by decide)

end Grammar

open Grammar

/-- **Types of any depth are read back, however the angles that close them are glued.** A type is
made of builtin types with arguments, which are types again, and of pointer and reference marks. It
is written with any number of blanks before each closing angle; without blanks, angles in a row are
cut into tokens of two. Reading a declaration of a variable of the type gives this one declaration
and no errors, and its type reference says the type: its names, arguments and marks in order. -/
theorem declaration_gives_back_type (gap : TypeTerm → Nat) (t : TypeTerm) {x : String}
    (hx : IsName x) (hunbound : IsUnbound x) (config : ParseConfig) :
    let program := Program.parse (declarationOf gap t x) config
    program.errors = [] ∧ ∃ node, program.nodes = [node] ∧ node.Declares x t := by
  have htext : (declarationOf gap t x).toList =
      (t.render gap).toList ++ (' ' :: (x.toList ++ [';'])) := by
    rw [declarationOf, String.toList_append, String.toList_append, String.toList_append,
      List.append_assoc, List.append_assoc]
    rfl
  have hslash : '/' ∉ (declarationOf gap t x).toList := by
    rw [htext, List.mem_append, List.mem_cons, List.mem_append]
    rintro (hmem | hmem | hmem | hmem)
    · exact slash_render gap t hmem
    · cases hmem
    · exact slash_name hx hmem
    · exact absurd hmem (by decide)
  have hfits : (t.render gap).toList.length ≤ (declarationOf gap t x).utf8ByteSize + 1 := by
    have hbytes := byteSize_eq_utf8ByteSize (declarationOf gap t x).toList
    have hle := length_le_byteSize (declarationOf gap t x).toList
    rw [String.ofList_toList] at hbytes
    rw [hbytes, htext, List.length_append] at hle
    omega
  have hstart : Faces IsFresh _ (State.start (declarationOf gap t x) config) :=
    faces_start hslash isFresh_initial config
  rw [htext] at hstart
  obtain ⟨-, b, hkind⟩ := hstart.of_type (follows_name hx head_semicolon)
  rcases leads_statement hx hunbound (readsType t hfits) hstart with
    ⟨found, u, hrun, -, hfound, hu⟩ | ⟨e, u, -, -, hfalse⟩
  · obtain ⟨node, rfl, hnode⟩ := hfound
    obtain ⟨hnodes, herrors⟩ := parse_of_statement hstart.comments
      (beq_false_of_ne (hkind ▸ (kind_type b).2.1)) (beq_false_of_ne (hkind ▸ (kind_type b).2.2))
      hrun hu.isLast
    exact ⟨herrors.trans hu.errors, _, hnodes, hnode⟩
  · exact absurd hfalse id

/-- Three angles in a row, glued and with blanks between them. -/
theorem glued_angles_are_read_back :
    let lists := TypeTerm.mk .list [.mk .list [.mk .int32 [] []] []] []
    let t := TypeTerm.mk .dict [.mk .string [] [], lists] [.pointer, .reference]
    let glued := Program.parse "Dict<String, List<List<Int32>>> * & x;" .standard
    let spaced := Program.parse "Dict<String, List<List<Int32 > > > * & x;" .standard
    IsName "x" ∧ IsUnbound "x" ∧
      (glued.errors = [] ∧ ∃ node, glued.nodes = [node] ∧ node.Declares "x" t) ∧
      (spaced.errors = [] ∧ ∃ node, spaced.nodes = [node] ∧ node.Declares "x" t) := by
  intro lists t glued spaced
  have hx : IsName "x" := ⟨⟨_, _, rfl, rfl, rfl⟩, by decide, by decide⟩
  have hunbound : IsUnbound "x" := fun b => by cases b <;> decide
  have hglued : declarationOf (fun _ => 0) t "x" = "Dict<String, List<List<Int32>>> * & x;" := by
    decide +kernel
  have hspaced :
      declarationOf (fun _ => 1) t "x" = "Dict<String, List<List<Int32 > > > * & x;" := by
    decide +kernel
  have hreadGlued := declaration_gives_back_type (fun _ => 0) t hx hunbound .standard
  have hreadSpaced := declaration_gives_back_type (fun _ => 1) t hx hunbound .standard
  rw [hglued] at hreadGlued
  rw [hspaced] at hreadSpaced
  exact ⟨hx, hunbound, hreadGlued, hreadSpaced⟩

end SableFront
