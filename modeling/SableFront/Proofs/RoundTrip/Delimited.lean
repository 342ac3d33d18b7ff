import SableFront.Proofs.RoundTrip.Operator

/-!
# Round trip: lists and dictionaries

Items with commas between them are read up to the closing mark, one by one and each as what it stands
for (`goes_commaList`). So lists and dictionaries whose parts are written as operands are read.
-/

namespace SableFront

/-- The marks that close lists. -/
def Punctuation.closes : Punctuation → Bool
  | .rParen | .rBracket | .rBrace => true
  | _ => false

section Lengths

variable {β : Type} {words : β → List Word} {bs : List β}

theorem length_le_commas (h : ∀ b ∈ bs, 0 < (words b).length) :
    bs.length ≤ (commas (bs.map words)).length := by
  induction bs with
  | nil => exact Nat.le_refl 0
  | cons b bs ih =>
    have hb := h b List.mem_cons_self
    have hmore := ih fun c hc => h c (List.mem_cons_of_mem b hc)
    cases bs with
    | nil => exact hb
    | cons c bs =>
      have hwords : commas ((b :: c :: bs).map words) =
          words b ++ .mark .comma :: commas ((c :: bs).map words) := rfl
      simp only [hwords, List.length_append, List.length_cons] at hmore ⊢
      omega

theorem length_le_commas_of_mem {b : β} (hb : b ∈ bs) :
    (words b).length ≤ (commas (bs.map words)).length := by
  induction bs with
  | nil => cases hb
  | cons c bs ih =>
    cases bs with
    | nil => exact Nat.le_of_eq (congrArg (List.length ∘ words) (List.mem_singleton.mp hb))
    | cons d bs =>
      have hwords : commas ((c :: d :: bs).map words) =
          words c ++ .mark .comma :: commas ((d :: bs).map words) := rfl
      rw [hwords, List.length_append, List.length_cons]
      rcases List.mem_cons.mp hb with rfl | hb
      · omega
      · have hle := ih hb
        omega

end Lengths

namespace Grammar

variable {ws rest : List Word} {e : Outline} {n k : Nat}

/-! ### Comma lists -/

section CommaLists

variable {α β γ : Type} {item : Production α} {f : α → γ} {g : β → γ} {words : β → List Word}
  {p : Punctuation} {missing : State → ErrorKind}

/-- The production reads the words of `b` before whatever does not pull, as what `b` stands for. -/
structure ReadsItem (p : Punctuation) (item : Production α) (f : α → γ) (g : β → γ)
    (words : β → List Word) (b : β) : Prop where
  starts : ∀ rest, Word.kindAt (words b ++ rest) ≠ .punctuation p
  goes : ∀ rest, (Word.kindAt rest).pull = 0 → Goes item (words b ++ rest) rest (f · = g b)

/-- One item, with a comma or the closing mark after it. -/
theorem goes_commaRound_next {b : β} (hb : ReadsItem p item f g words b) (items : List α)
    {after mid : List Word} (hpull : (Word.kindAt after).pull = 0)
    (hafter : after = .mark .comma :: mid ∨
      after = mid ∧ p ≠ .comma ∧ Word.kindAt mid = .punctuation p) :
    Goes (commaRound (.mark p) missing item items) (words b ++ after) mid fun found =>
      ∃ items', found = .inl items' ∧ items'.map f = items.map f ++ [g b] := by
  refine (goes_eat_none (hb.starts after)).bind fun close hclose => ?_
  subst hclose
  refine (hb.goes after hpull).bind fun a ha => ?_
  have hitems : (items ++ [a]).map f = items.map f ++ [g b] := by
    rw [List.map_append, List.map_singleton, ha]
  rcases hafter with rfl | ⟨rfl, hcomma, hkind⟩
  · refine (goes_eat (w := .mark .comma) rfl).bind fun comma hcomma => goes_get.bind fun s hs => ?_
    obtain ⟨t, rfl, -⟩ := hcomma
    exact .pure ⟨_, rfl, hitems⟩
  · have hnone : Word.kindAt after ≠ .punctuation .comma := by
      rw [hkind]
      exact fun h => hcomma (Kind.punctuation.inj h)
    refine (goes_eat_none hnone).bind fun comma hcomma => goes_get.bind fun s hs => ?_
    have hnext : (Closer.mark p).isNext s = true := by
      show s.isAt (.punctuation p) = true
      rw [hs.isAt, hkind, beq_self_eq_true]
    rw [hnext, Bool.not_true, Bool.and_false, if_neg Bool.false_ne_true]
    exact .pure ⟨_, rfl, hitems⟩

/-- Items up to the closing mark, after those that have been read. -/
theorem goes_commaRounds (hp : p.closes) {bs : List β}
    (hbs : ∀ b ∈ bs, ReadsItem p item f g words b) (hk : bs.length < k) (items : List α) :
    Goes (loop (commaRound (.mark p) missing item) k items)
      (commas (bs.map words) ++ .mark p :: rest) rest
      fun found => found.1.map f = items.map f ++ bs.map g := by
  have hpull : (Kind.punctuation p).pull = 0 := by
    revert hp
    cases p <;> decide
  have hcomma : p ≠ .comma := by
    rintro rfl
    cases hp
  induction k generalizing bs items with
  | zero => exact absurd hk (Nat.not_lt_zero _)
  | succ k ih =>
    cases bs with
    | nil =>
      refine Leads.loop_last ((goes_eat (w := .mark p) rfl).bind fun close hclose => ?_)
      obtain ⟨t, rfl, -⟩ := hclose
      exact .pure ⟨(items, t), rfl, (List.append_nil _).symm⟩
    | cons b bs =>
      have hb := hbs b List.mem_cons_self
      have hmore (c : β) (hc : c ∈ bs) : ReadsItem p item f g words c :=
        hbs c (List.mem_cons_of_mem b hc)
      have hrest (items' : List α) (hitems : items'.map f = items.map f ++ [g b]) :
          Goes (loop (commaRound (.mark p) missing item) k items')
            (commas (bs.map words) ++ .mark p :: rest) rest
            fun found => found.1.map f = items.map f ++ (b :: bs).map g := by
        refine (ih hmore (Nat.lt_of_succ_lt_succ hk) items').mono fun found hfound => ?_
        rw [hfound, hitems, List.append_assoc, List.singleton_append, List.map_cons]
      cases bs with
      | nil =>
        have hround : Goes (commaRound (.mark p) missing item items) (words b ++ .mark p :: rest)
            (.mark p :: rest) fun found =>
              ∃ items', found = .inl items' ∧ items'.map f = items.map f ++ [g b] :=
          goes_commaRound_next hb items hpull (.inr ⟨rfl, hcomma, rfl⟩)
        exact Leads.loop_next hround hrest
      | cons c bs =>
        have hround : Goes (commaRound (.mark p) missing item items)
            (words b ++ .mark .comma :: (commas ((c :: bs).map words) ++ .mark p :: rest))
            (commas ((c :: bs).map words) ++ .mark p :: rest) fun found =>
              ∃ items', found = .inl items' ∧ items'.map f = items.map f ++ [g b] :=
          goes_commaRound_next hb items (by rfl) (.inl rfl)
        have hwords : commas ((b :: c :: bs).map words) ++ .mark p :: rest =
            words b ++ .mark .comma :: (commas ((c :: bs).map words) ++ .mark p :: rest) := by
          rw [List.map_cons, List.map_cons, commas_cons_cons, List.append_assoc, List.cons_append]
        rw [hwords]
        exact Leads.loop_next hround hrest

/-- **A list with commas** is read up to its closing mark. -/
theorem goes_commaList (hp : p.closes) {bs : List β}
    (hbs : ∀ b ∈ bs, ReadsItem p item f g words b) (hk : bs.length < k) :
    Goes (commaList k (.mark p) missing item) (commas (bs.map words) ++ .mark p :: rest) rest
      fun found => found.1.map f = bs.map g :=
  goes_commaRounds hp hbs hk []

end CommaLists

theorem IsOperand.kindAt_ne (h : IsOperand ws e) {p : Punctuation} (hp : p.closes)
    (rest : List Word) : Word.kindAt (ws ++ rest) ≠ .punctuation p := by
  intro hkind
  have hstarts := h.starts rest
  rw [hkind] at hstarts
  revert hstarts hp
  cases p <;> decide

/-- Within a form, an operand is read by the next circle. -/
theorem IsOperand.inner (h : IsOperand ws e) (hn : ws.length < n) :
    Gives 5 (rules n).expression ws e := by
  obtain ⟨m, rfl⟩ := Nat.exists_eq_add_one_of_ne_zero (Nat.ne_zero_of_lt hn)
  exact h.reads m (Nat.le_of_lt_succ hn)

theorem goes_expressions {close : Punctuation} (hclose : close.closes) (unclosed : ErrorKind)
    {words : Outline → List Word} {items : List Outline} (h : ∀ e ∈ items, IsOperand (words e) e)
    (hn : (commas (items.map words)).length < n) :
    Goes (expressions (rules n) close unclosed) (commas (items.map words) ++ .mark close :: rest)
      rest fun found => found.1.map Node.outline = items := by
  have hk : items.length < (rules n).rounds := by
    rw [rounds_rules]
    exact Nat.lt_of_le_of_lt (length_le_commas fun e he => (h e he).length_pos) hn
  refine (goes_commaList hclose (fun e he => ?_) hk).mono fun found hfound =>
    hfound.trans (List.map_id items)
  refine ⟨(h e he).kindAt_ne hclose, fun rest hrest => ?_⟩
  have hlength := Nat.lt_of_le_of_lt (length_le_commas_of_mem he) hn
  have hitem := (h e he).inner hlength rest (by omega)
  refine hitem.bind fun found hfound => ?_
  obtain ⟨node, rfl, hnode⟩ := hfound
  exact .pure hnode

/-! ### Values with parts -/

theorem outline_build_children (form : Form) (t : Token) (children : List Node) (further : List Span) :
    (Node.build form t children [] further).outline =
      .mk (NodeData.shape ⟨form, t, .point .origin, [], [], []⟩) (children.map Node.outline) :=
  Node.outline_build _ _ _ _ _

theorem reads_list {words : Outline → List Word} {items : List Outline}
    (h : ∀ e ∈ items, IsOperand (words e) e) :
    ReadsAs (inBrackets (commas (items.map words))) (.mk .list items) := by
  intro n hn
  rw [inBrackets, List.cons_append, List.length_cons, List.length_append] at hn
  have hvalues : Values (rules n) (inBrackets (commas (items.map words))) (.mk .list items) := by
    intro rest
    rw [inBrackets, List.append_assoc, List.cons_append, List.singleton_append]
    refine goes_value (.map (goes_advance.bind fun bracket _ => ?_))
    refine (goes_expressions (by rfl) _ h (by omega)).bind fun found hfound => .pure ⟨_, rfl, ?_⟩
    rw [outline_build_children, hfound]
    rfl
  have hpos : 0 < (rules n).rounds := by
    rw [rounds_rules]
    omega
  exact hvalues.expression (noPrefix_cons rfl) hpos

/-- A dictionary entry as it is written. -/
def entryWords (words : Outline → List Word) (entry : Outline × Outline) : List Word :=
  words entry.1 ++ .mark .colon :: words entry.2

theorem readsItem_entry {words : Outline → List Word} {entry : Outline × Outline}
    (hkey : IsOperand (words entry.1) entry.1) (hvalue : IsOperand (words entry.2) entry.2)
    (hn : (entryWords words entry).length < n) :
    ReadsItem .rBrace (dictEntry (rules n)) (List.map Node.outline) (fun e => [e.1, e.2])
      (entryWords words) entry := by
  rw [entryWords, List.length_append, List.length_cons] at hn
  refine ⟨fun rest => ?_, fun rest hrest => ?_⟩
  · rw [entryWords, List.append_assoc]
    exact hkey.kindAt_ne (by rfl) _
  · have hcolon : (Kind.punctuation .colon).pull < 5 := by decide
    have hkeyGoes := hkey.inner (by omega : _ < n) (.mark .colon :: (words entry.2 ++ rest)) hcolon
    have hvalueGoes := hvalue.inner (by omega : _ < n) rest (by omega)
    rw [entryWords, List.append_assoc, List.cons_append]
    refine (Leads.require hkeyGoes _).bind fun key houtline => ?_
    refine (goes_expect (w := .mark .colon) rfl _).bind fun _ _ => ?_
    refine (Leads.require hvalueGoes _).bind fun value houtline' => .pure ?_
    rw [List.map_cons, List.map_singleton, houtline, houtline']

theorem reads_dict {words : Outline → List Word} {entries : List (Outline × Outline)}
    (hkeys : ∀ e ∈ entries, IsOperand (words e.1) e.1)
    (hvalues : ∀ e ∈ entries, IsOperand (words e.2) e.2) :
    ReadsAs (inBraces (commas (entries.map (entryWords words))))
      (.mk .dict (entries.flatMap fun e => [e.1, e.2])) := by
  intro n hn
  rw [inBraces, List.cons_append, List.length_cons, List.length_append] at hn
  have hlt : (commas (entries.map (entryWords words))).length < n := by omega
  have hpos : 0 < (rules n).rounds := by
    rw [rounds_rules]
    exact Nat.zero_lt_of_lt hlt
  have hk : entries.length < (rules n).rounds := by
    rw [rounds_rules]
    refine Nat.lt_of_le_of_lt (length_le_commas fun e he => ?_) hlt
    rw [entryWords, List.length_append, List.length_cons]
    omega
  refine Values.expression (fun rest => ?_) (noPrefix_cons rfl) hpos
  rw [inBraces, List.append_assoc, List.cons_append, List.singleton_append]
  refine goes_value (.map (goes_advance.bind fun brace _ => ?_))
  have hentry (e : Outline × Outline) (he : e ∈ entries) :=
    readsItem_entry (hkeys e he) (hvalues e he) (Nat.lt_of_le_of_lt (length_le_commas_of_mem he) hlt)
  refine (goes_commaList (by rfl) hentry hk).bind fun found hfound => .pure ⟨_, rfl, ?_⟩
  rw [outline_build_children, List.map_flatten, hfound, List.flatMap_def]
  rfl

end Grammar

end SableFront
