import SableFront.Program
import SableFront.Proofs.Discipline.Expression

/-!
# Disciplines: definitions

A definition takes the note of the header before it, so it is looked at together with the note: what
is asked of it depends on whether there is one (`Discipline.Defining`). It declares its name where
the note says, and what else it declares goes to scopes of its own. A class gets a new scope for its
members, because nothing that is read between its name and its body can have given it one
(`Rules.LeavesSymbols`).

A header leaves its note for a while. Where a discipline has nothing against that
(`Discipline.Notes`), templates keep to it too.
-/

namespace SableFront.Grammar

open Node
open Discipline (Reads Binds Builds)

variable {D : Discipline} {r : Rules} {w : Place} {visibility storage : Option Node}
  {note : Option ScopeId} {id : Option SymbolId} {s : State}

/-- Where no note waits, what is read before the body of a class leaves all symbols alone. -/
def Rules.LeavesSymbols (r : Rules) : Prop :=
  ∀ ⦃s : State⦄, s.templateScope = none → Meets s (bases r) (bases r)
    (fun _ t => ∀ i < s.symbols.size, t.symbols.symbol? i = s.symbols.symbol? i) fun _ _ => True

namespace Discipline

variable (D)

/-- The production reads a definition, behind a header that has left a note or without one. -/
def Defining (w : Place) (p : Production Node) : Prop :=
  ∀ ⦃s : State⦄ (note : Option ScopeId), D.Holds w s → (∀ outer ∈ note, D.Open outer) →
    Meets { s with templateScope := note } p p (fun n t => D.Holds w t ∧ D.Definition note n)
      fun _ t => D.Holds w t

/-- The note of a header may be left for what is read behind it, if it is forgotten afterwards. -/
class Notes : Prop where
  template {n : Node} : n.form = .template → (∀ c ∈ n.children, D.Value c) → D.Value n
  await {w : Place} {s : State} : D.Holds w s → D.Holds { w with noted := true } s
  leave {w : Place} {s : State} {outer : ScopeId} : w.noted → D.Holds w s → D.Open outer →
    D.Holds w { s with templateScope := some outer }
  forget {w : Place} {s : State} : D.Holds { w with noted := true } s →
    D.Holds w { s with templateScope := none }

end Discipline

/-- What a callable is made of is as it is asked of values. -/
theorem forall_mem_callable {ns : List Node} {body : Node} (hvisibility : D.Found visibility)
    (hstorage : D.Found storage) (hns : ∀ n ∈ ns, D.Value n) (hbody : D.Value body) :
    ∀ n ∈ visibility.toList ++ storage.toList ++ ns ++ [body], D.Value n := by
  have hbefore : ∀ n ∈ visibility.toList ++ storage.toList, D.Value n :=
    List.forall_mem_append.mpr ⟨forall_mem_toList.mpr hvisibility, forall_mem_toList.mpr hstorage⟩
  exact forall_mem_concat (List.forall_mem_append.mpr ⟨hbefore, hns⟩) hbody

/-- No note waits. -/
def State.Quiet (s : State) : Prop := s.templateScope = none

instance : Invariant State.Quiet where
  advance {s} h := s.templateScope_advance.trans h
  record {s} e h := (s.templateScope_record e).trans h
  split h _ := h
  rewind _ ht := ht

variable [D.Lawful]

namespace Discipline

/-- A definition is declared where the note says, or else in the current scope. -/
theorem open_getD (hs : D.Holds w s) (hw : D.Open w.scope) (hnote : ∀ outer ∈ note, D.Open outer) :
    D.Open (note.getD s.symbols.current) := by
  cases note with
  | some outer => exact hnote outer rfl
  | none => exact Binds.here hs hw

namespace Defining

/-- Behind its keyword a definition takes the note. -/
theorem behindKeyword {f : Token → Option ScopeId → Production Node}
    (hf : ∀ keyword note, (∀ outer ∈ note, D.Open outer) → ∀ ⦃s : State⦄, D.Holds w s → s.Quiet →
      Meets s (f keyword note) (f keyword note) (fun n t => D.Holds w t ∧ D.Definition note n)
        fun _ t => D.Holds w t) :
    D.Defining w (advance >>= fun keyword => takeTemplateScope >>= f keyword) := by
  intro s note hs hnote
  rw [meets_advance, meets_takeTemplateScope, s.advance_withNote]
  have hquiet : D.Holds w { s.advance with templateScope := none } :=
    Reads.withoutNote (Invariant.advance hs)
  exact hf _ note hnote hquiet rfl

/-- A definition stands as a statement like any other. -/
theorem obeys {p : Production Node} (h : D.Defining w p) : Preserves (D.Holds w) p D.Value := by
  intro s hs
  exact (h s.templateScope hs (Binds.note hs)).weaken fun _ _ ht =>
    ⟨ht.1, Builds.defined hs ht.2⟩

end Defining

end Discipline

/-! ### Functions and operators -/

theorem obeys_newSignature (h : D.Governs r) (hid : ∀ i ∈ id, D.Own i) :
    Preserves (D.Holds w) (inNewScope (signatureAndBody r id)) fun parts =>
      parts.1.Obeys D ∧ D.Value parts.2 :=
  obeys_inNewScope fun _ hopen => obeys_signatureAndBody h hopen hid

theorem defining_functionDef (h : D.Governs r) (hw : D.Open w.scope)
    (hvisibility : D.Found visibility) (hstorage : D.Found storage) :
    D.Defining w (functionDef r visibility storage) := by
  refine .behindKeyword fun keyword note hnote s hs _ => ?_
  rw [meets_get]
  dsimp only
  have hscope := Discipline.open_getD hs hw hnote
  refine (Preserves.expectIdent hs).bind fun ident t ht => ?_
  refine (meets_declare ht.1 (Discipline.name _ _) _ hscope _).bind fun found u hu => ?_
  obtain ⟨⟨hu, -⟩, hfound⟩ := hu
  refine (obeys_newSignature h hfound.own hu).bind fun parts v hv => .pure ⟨hv.1, ?_⟩
  obtain ⟨-, hsig, hbody⟩ := hv
  refine Builds.function rfl (List.append_assoc _ (found.1 :: _) _) ?_ ?_
    (hfound.introduced fun i hi => by cases hi; rfl)
  · cases visibility <;> cases storage <;> rfl
  · exact forall_mem_callable hvisibility hstorage
      (List.forall_mem_cons.mpr ⟨hfound.value, hsig.forall_mem⟩) hbody

theorem obeys_bindOperator (hw : D.Open w.scope) (hnote : ∀ outer ∈ note, D.Open outer)
    (symbol : Symbol) :
    Preserves (D.Holds w) (bindOperator note symbol) fun id => ∀ i ∈ id, D.Own i := by
  unfold bindOperator
  refine .getBind fun s hs => ?_
  cases note with
  | some scope =>
    dsimp only
    cases hadd : s.symbols.addIn scope symbol with
    | ok added =>
      obtain ⟨hholds, hown⟩ := Binds.addIn hs (hnote scope rfl) hadd
      refine (Preserves.set hholds).bind fun _ _ => .pure fun i hi => ?_
      cases hi
      exact hown
    | error e => exact .pure fun _ hi => absurd hi (Option.not_mem_none _)
  | none =>
    obtain ⟨hholds, hown⟩ := Binds.insert symbol hs hw
    refine (Preserves.set hholds).bind fun _ _ => .pure fun i hi => ?_
    cases hi
    exact hown

theorem defining_operatorDef (h : D.Governs r) (hw : D.Open w.scope)
    (hvisibility : D.Found visibility) (hstorage : D.Found storage) :
    D.Defining w (operatorDef r visibility storage) := by
  refine .behindKeyword fun keyword note hnote s hs _ => ?_
  rw [meets_current]
  split
  · rw [meets_advance]
    refine (obeys_bindOperator hw hnote _ (Invariant.advance hs)).bind fun id t ht => ?_
    refine (obeys_newSignature h ht.2 ht.1).bind fun parts u hu => .pure ⟨hu.1, ?_⟩
    obtain ⟨-, hsig, hbody⟩ := hu
    exact Builds.operator rfl (forall_mem_callable hvisibility hstorage hsig.forall_mem hbody)
  · exact .failFor hs

/-! ### Classes and enums -/

theorem obeys_bases (h : D.Governs r) :
    Preserves (D.Holds w) (bases r) fun types => ∀ n ∈ types, D.Typing n := by
  unfold bases
  refine (Preserves.eat _).bind fun colon _ => ?_
  cases colon with
  | some colon => exact .commaItems ((obeys_typeRef h found_none).require _) _
  | none => exact .pure (List.forall_mem_nil _)

/-- Between the name and the body of a class nothing happens to any symbol. -/
theorem meets_bases (h : D.Governs r) (hleaves : r.LeavesSymbols) (hs : D.Holds w s)
    (hquiet : s.Quiet) :
    Meets s (bases r) (bases r)
      (fun types t => (D.Holds w t ∧ ∀ n ∈ types, D.Typing n) ∧
        ∀ i < s.symbols.size, t.symbols.symbol? i = s.symbols.symbol? i)
      fun _ t => D.Holds w t :=
  ((obeys_bases h hs).and (hleaves hquiet)).mono (fun _ _ ht => ht) fun _ _ ht => ht.1

/-- The scope for the members of a class is a new one. -/
theorem meets_memberScope (hs : D.Holds w s)
    (hid : ∀ i ∈ id, D.Own i ∧ (s.symbols.symbol? i).bind (·.members) = none) :
    Meets s (memberScope id) (memberScope id) (fun enter t => D.Holds w t ∧ D.Enters w enter)
      fun _ t => D.Holds w t := by
  unfold memberScope
  cases id with
  | none => exact .pure ⟨hs, Discipline.enters_push⟩
  | some id =>
    obtain ⟨hown, hmembers⟩ := hid id rfl
    obtain ⟨hholds, hopen⟩ := Binds.members hs hown hmembers
    rw [meets_get]
    dsimp only
    rw [meets_set]
    exact .pure ⟨hholds, fun _ hu => ⟨Binds.enter hu, hopen⟩⟩

theorem defining_classDef (h : D.Governs r) (hleaves : r.LeavesSymbols) (hw : D.Open w.scope)
    (hvisibility : D.Found visibility) : D.Defining w (classDef r visibility) := by
  refine .behindKeyword fun keyword note hnote s hs hquiet => ?_
  dsimp only
  rw [meets_get]
  have hscope := Discipline.open_getD hs hw hnote
  refine ((Preserves.expectIdent hs).and (Preserves.expectIdent hquiet)).mono
    (fun _ _ ht => ht) (fun _ _ ht => ht.1) |>.bind fun ident t ht => ?_
  refine (meets_declare ht.1.1 (Discipline.name _ _) _ hscope _).bind fun found u hu => ?_
  obtain ⟨⟨hu, -, hsame⟩, hfound⟩ := hu
  refine (meets_bases h hleaves hu (hsame.trans ht.2.1)).bind fun types v hv => ?_
  obtain ⟨⟨hv, htypes⟩, hkept⟩ := hv
  rw [meets_isAt]
  split
  · refine (meets_memberScope hv fun i hi => ⟨hfound.own i hi, ?_⟩).bind fun enter x hx => ?_
    · obtain ⟨hlt, hmembers⟩ := hfound.bound i hi
      rw [hkept i hlt, hmembers]
      rfl
    · refine (obeys_block h hx.2 _ hx.1).bind fun body y hy => .pure ⟨hy.1, ?_⟩
      refine Builds.classes rfl rfl ?_ (forall_mem_toList.mpr hvisibility) hfound.value htypes hy.2
        (hfound.introduced fun i hi => by cases hi; rfl)
      cases visibility <;> rfl
  · exact .fail hv

/-! ### Templates -/

theorem obeys_templateParam (hw : D.Open w.scope) :
    Preserves (D.Holds w) templateParam D.Value := by
  unfold templateParam
  refine Preserves.expectIdent.bind fun ident _ => ?_
  have hname : D.Value (.name ident.1 ident.2) := Discipline.name _ _
  dsimp only
  refine (Preserves.eat _).bind fun dots _ => ?_
  cases dots with
  | some dots =>
    dsimp only
    rw [pure_bind]
    refine .getBind fun s hs => ?_
    exact (obeys_declare (Discipline.mark hname dots) _ (Binds.here hs hw) _).bind
      fun found hfound => .pure hfound.1
  | none =>
    dsimp only
    rw [pure_bind]
    refine .getBind fun s hs => ?_
    exact (obeys_declare hname _ (Binds.here hs hw) _).bind fun found hfound => .pure hfound.1

variable [D.Notes]

theorem obeys_templateRest (h : D.Governs r) (hw : D.Open w.scope) (hnoted : w.noted)
    {outer : ScopeId} (houter : D.Open outer) :
    Preserves (D.Holds w) (templateRest r outer)
      fun found => (∀ n ∈ found.1, D.Value n) ∧ D.Value found.2 := by
  unfold templateRest
  refine (Preserves.commaList (obeys_templateParam hw) .closeAngle _).bind
    fun params hparams => Preserves.current.bind fun token _ => ?_
  split
  · refine (Preserves.modify fun s hs => Discipline.Notes.leave hnoted hs houter).bind fun _ _ => ?_
    exact ((h.statement hw).require _).bind fun item hitem => .pure ⟨hparams, hitem⟩
  · exact .failFor _ _

theorem obeys_template (h : D.Governs r) (hw : D.Open w.scope) :
    Preserves (D.Holds w) (template r) D.Value := by
  unfold template
  refine Preserves.advance.bind fun keyword _ => (Preserves.eat _).bind fun angle _ => ?_
  cases angle with
  | none => exact .failFor _ _
  | some angle =>
    refine .getBind fun s hs => ?_
    have houter : D.Open s.symbols.current := Binds.here hs hw
    have hrest : Preserves (D.Holds { w with noted := true })
        (inNewScope (templateRest r s.symbols.current))
        fun found => (∀ n ∈ found.1, D.Value n) ∧ D.Value found.2 :=
      obeys_inNewScope fun _ hopen => obeys_templateRest h hopen rfl houter
    have hforgets : Preserves (D.Holds w)
        (ensuring (fun s => { s with templateScope := none })
          (inNewScope (templateRest r s.symbols.current)))
        fun found => (∀ n ∈ found.1, D.Value n) ∧ D.Value found.2 := fun t ht =>
      .ensuring ((hrest (Discipline.Notes.await ht)).mono
        (fun _ _ hu => ⟨Discipline.Notes.forget hu.1, hu.2⟩) fun _ _ hu =>
          Discipline.Notes.forget hu)
    exact hforgets.bind fun parts hparts => .pure
      (Discipline.Notes.template rfl (forall_mem_concat hparts.1 hparts.2))

end SableFront.Grammar
