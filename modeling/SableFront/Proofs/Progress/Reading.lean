import SableFront.Program
import SableFront.Proofs.Progress.Statement

/-!
# Progress: reading a whole text

The contracts of the single productions close over the circles of the grammar: `rules n` and
`rules m` agree on all texts with fewer bytes left than both `n` and `m`. So reading ends at the end
of the text, and neither circles nor rounds run out on the way.

To say the same of the lists of statements deep inside, and of those read in attempts that are given
up later, the lists are *watched*: a watched list checks each of its rounds and leaves the ordinary
course of reading, in whatever way one likes, as soon as a round has not gone on in the text. The
main statement `reading_goes_on` says that watching makes no difference.
-/

namespace SableFront

theorem byteSize_eq_utf8ByteSize (cs : List Char) :
    byteSize cs = (String.ofList cs).utf8ByteSize := by
  induction cs with
  | nil => rfl
  | cons c cs ih =>
    rw [byteSize_cons, ih, String.ofList_cons, String.utf8ByteSize_append,
      String.utf8ByteSize_singleton]

theorem byteSize_toList (source : String) : byteSize source.toList = source.utf8ByteSize := by
  rw [byteSize_eq_utf8ByteSize, String.ofList_toList]

namespace Grammar

/-! ### Watched lists -/

/-- The reading of a list has gone on from one state to another, or ended. -/
def goesOn (s t : State) : Bool := s.current.offset < t.current.offset || t.isAt .eof

/-- An item is given although nothing has been read, so that it must be stepped over. -/
def stalls (rules : Rules) (context : Context) (s : State) : Bool :=
  match (itemProduction rules context s).run { s with comments := [] } with
  | (.ok (some _), t) => t.current.offset == s.current.offset && !t.isAt .eof
  | _ => false

/-- A list that is left through `escape` after a round that did not go on, an item that stalled, an
internal error, or too many rounds. -/
def watchedAfter (escape : List Node → State → List Node × State) (rules : Rules)
    (context : Context) : Nat → List Node → State → List Node × State
  | 0, nodes, s => escape nodes s
  | n + 1, nodes, s =>
    let t := skipSemicolons rules.rounds s
    if endsItems context t then
      (nodes ++ t.comments.map .ofComment, { t with comments := [] })
    else
      let (found, u) := item rules context t
      if stalls rules context t || !goesOn s u || u.errors.any (·.kind.isInternal) then
        escape (nodes ++ found) u
      else watchedAfter escape rules context n (nodes ++ found) u

/-- The productions with some circles left, when all lists of statements are watched. -/
def watched (escape : List Node → State → List Node × State) : Nat → Rules
  | 0 => exhausted
  | n + 1 =>
    { rounds := n + 1
      expression := fun s => expression (watched escape n) s
      shift := fun s => shift (watched escape n) s
      steps := fun s => steps (watched escape n) s
      deref := fun s => deref (watched escape n) s
      invert := fun s => invert (watched escape n) s
      typeRef := fun s => typeRef (watched escape n) none s
      statement := fun s => statement (watched escape n) s
      items := fun context s =>
        watchedAfter escape (watched escape n) context (watched escape n).rounds [] s }

variable {total n b : Nat} {s t : State} {r r' : Rules} {context : Context}
  {escape : List Node → State → List Node × State}

theorem goesOn_of_left (hs : s.Sound total) (ht : t.Sound total) (h : t.left < s.left) :
    goesOn s t := by
  have h1 := hs.offset_add_left
  have h2 := ht.offset_add_left
  have h3 : s.current.offset < t.current.offset := by omega
  simp [goesOn, h3]

theorem not_stalls (h : Agree total n r r') (hs : At total (n + 1) s) :
    stalls r' context s = false := by
  have hrun := reads_itemProduction h hs context []
  unfold stalls
  split
  · rename_i node t hp
    have hq : outcome (itemProduction r context s) { s with comments := [] } = (.ok (some node), t) :=
      hrun.same.symm.trans hp
    have hat : At total s.left t := hrun.of_ok hq
    rw [Bool.and_eq_false_iff, beq_eq_false_iff_ne]
    exact Or.inl (hat.offset_ne hs.sound)
  · rfl

/-- A watched list does what the list does, and ends where it should. -/
theorem At.watchedAfter (h : Agree total n r r') (hs : At total b s) (hb : b ≤ n + 1) {k k' : Nat}
    (hk : b ≤ k) (hk' : b ≤ k') (escape : List Node → State → List Node × State)
    (context : Context) (nodes : List Node) :
    watchedAfter escape r' context k' nodes s = itemsAfter r context k nodes s ∧
      At total b (itemsAfter r context k nodes s).2 ∧
      endsItems context (itemsAfter r context k nodes s).2 := by
  -- on the bound: each round that does not end the list goes below it
  induction b generalizing s k k' nodes with
  | zero => exact absurd hs.left (Nat.not_lt_zero _)
  | succ b ih =>
    obtain ⟨k, rfl⟩ : ∃ j, k = j + 1 := ⟨k - 1, by omega⟩
    obtain ⟨k', rfl⟩ : ∃ j, k' = j + 1 := ⟨k' - 1, by omega⟩
    have hle : s.left ≤ b := Nat.le_of_lt_succ hs.left
    have hround : b + 1 ≤ r.rounds := Nat.le_trans hb h.lt_rounds
    have hround' : b + 1 ≤ r'.rounds := Nat.le_trans hb h.lt_rounds'
    obtain ⟨hskip, hat⟩ := hs.skipSemicolons hround hround'
    unfold Grammar.watchedAfter itemsAfter
    dsimp only
    rw [hskip]
    generalize Grammar.skipSemicolons r.rounds s = t at hat ⊢
    cases hend : endsItems context t
    · rw [if_neg Bool.false_ne_true, if_neg Bool.false_ne_true]
      have heof : t.isAt .eof = false := by
        rw [endsItems, Bool.or_eq_false_iff] at hend
        exact hend.1
      have hatn : At total (n + 1) t := hat.mono (Nat.le_trans (Nat.succ_le_succ hle) hb)
      have hleft : t.left ≤ b := Nat.le_trans (Nat.le_of_lt_succ hat.left) hle
      obtain ⟨hitem, hnext⟩ := At.item h hatn heof
      rw [hitem, if_neg]
      · exact (ih (hnext.mono hleft) (Nat.le_of_succ_le hb) (Nat.le_of_succ_le_succ hk)
          (Nat.le_of_succ_le_succ hk') _).imp_right fun hr => ⟨hr.1.mono (Nat.le_succ b), hr.2⟩
      · have hon := goesOn_of_left hs.sound hnext.sound
          (Nat.lt_of_lt_of_le hnext.left (Nat.le_of_lt_succ hat.left))
        have herrors : (Grammar.item r context t).2.errors.any (·.kind.isInternal) = false :=
          List.any_eq_false.mpr fun e he => by simp [hnext.sound.errors e he]
        rw [not_stalls h hatn, hon, herrors]
        simp
    · rw [if_pos rfl, if_pos rfl]
      exact ⟨rfl, (hat.mono (Nat.succ_le_succ hle)).of_eq rfl rfl rfl, hend⟩

/-! ### All circles -/

theorem Reads.forget {α : Type} {N : State → Prop} {p q : Production (Option α)}
    (h : Reads total n N p q) : Reads total n (fun _ => True) p q := by
  intro s hs
  refine (h hs).weaken fun v t hv => ?_
  cases v with
  | none => exact ⟨hv.1, trivial⟩
  | some a => exact hv

/-- Nothing is left below the bound of no bytes, so any rules will do there. -/
theorem agree_zero (hr : 0 < r.rounds) (hr' : 0 < r'.rounds) : Agree total 0 r r' := by
  have hnone {α : Type} {N : State → Prop} {p q : Production (Option α)} : Reads total 0 N p q :=
    fun s hs => absurd hs.left (Nat.not_lt_zero _)
  refine ⟨hr, hr', hnone, hnone, hnone, hnone, hnone, hnone, hnone, fun context b hb s hs => ?_⟩
  exact absurd (Nat.lt_of_lt_of_le hs.left hb) (Nat.not_lt_zero _)

/-- Rules with one more circle and other rounds, whose lists are read as given. -/
def Rules.closed (r : Rules) (rounds : Nat) (items : Context → StateM State (List Node)) : Rules where
  rounds := rounds
  expression := fun s => Grammar.expression r s
  shift := fun s => Grammar.shift r s
  steps := fun s => Grammar.steps r s
  deref := fun s => Grammar.deref r s
  invert := fun s => Grammar.invert r s
  typeRef := fun s => Grammar.typeRef r none s
  statement := fun s => Grammar.statement r s
  items := items

/-- A list that is watched from its start. -/
def watchedItems (escape : List Node → State → List Node × State) (rules : Rules)
    (context : Context) : StateM State (List Node) := watchedAfter escape rules context rules.rounds []

theorem keeps_watchedItems (h : Agree total n r r')
    (escape : List Node → State → List Node × State) (context : Context) :
    Keeps total (n + 1) (liftM (items r context) : Production _)
      (liftM (watchedItems escape r' context)) := by
  intro b hb s hs
  obtain ⟨hsame, hat, -⟩ := hs.watchedAfter h hb (Nat.le_trans hb h.lt_rounds)
    (Nat.le_trans hb h.lt_rounds') escape context []
  exact .result _ _ rfl (congrArg (fun found => (Except.ok found.1, found.2)) hsame) hat

/-- One more circle lets rules agree on one more byte, also if the second ones read lists in another
way that does the same. -/
theorem Agree.closed (h : Agree total n r r') {items : Context → StateM State (List Node)}
    (hitems : ∀ context, Keeps total (n + 1) (liftM (Grammar.items r context) : Production _)
      (liftM (items context))) {k k' : Nat} (hk : n + 1 < k) (hk' : n + 1 < k') :
    Agree total (n + 1) (r.closed k (Grammar.items r)) (r'.closed k' items) where
  lt_rounds := hk
  lt_rounds' := hk'
  expression := (takes_expression h).reads.forget
  shift := (takes_shift h).reads.forget
  steps := (takes_steps h).reads.forget
  deref := (takes_deref h).reads.forget
  invert := (takes_invert h).reads.forget
  typeRef := reads_typeRef h none
  statement := reads_statement h
  items := hitems

/-- With enough circles and rounds it makes no difference how many there are, nor whether lists are
read in another way, if that does the same. -/
theorem agree_of_items {q : Nat → Rules} (items : Rules → Context → StateM State (List Node))
    (hq : ∀ k, q (k + 1) = (q k).closed (k + 1) (items (q k)))
    (hitems : ∀ {n r r'}, Agree total n r r' → ∀ context,
      Keeps total (n + 1) (liftM (Grammar.items r context) : Production _) (liftM (items r' context)))
    {m m' : Nat} (hm : n < m) (hm' : n < m') : Agree total n (rules m) (q m') := by
  -- on the bound: what is behind a circle is read below it, with one circle less to go
  induction n generalizing m m' with
  | zero =>
    obtain ⟨m, rfl⟩ := Nat.exists_eq_add_one_of_ne_zero (Nat.ne_of_gt hm)
    obtain ⟨m', rfl⟩ := Nat.exists_eq_add_one_of_ne_zero (Nat.ne_of_gt hm')
    rw [hq m']
    exact agree_zero hm hm'
  | succ n ih =>
    obtain ⟨m, rfl⟩ := Nat.exists_eq_add_one_of_ne_zero (Nat.ne_of_gt (Nat.zero_lt_of_lt hm))
    obtain ⟨m', rfl⟩ := Nat.exists_eq_add_one_of_ne_zero (Nat.ne_of_gt (Nat.zero_lt_of_lt hm'))
    have h := ih (Nat.lt_of_succ_lt_succ hm) (Nat.lt_of_succ_lt_succ hm')
    rw [hq m']
    exact h.closed (hitems h) hm hm'

theorem agree_watched (escape : List Node → State → List Node × State) {m m' : Nat} (hm : n < m)
    (hm' : n < m') : Agree total n (rules m) (watched escape m') :=
  agree_of_items (watchedItems escape) (fun _ => rfl) (fun h => keeps_watchedItems h escape) hm hm'

/-! ### A whole text -/

/-- The first state of a text is sound, and no more bytes are left than the text has. -/
theorem at_start (source : String) (config : ParseConfig) :
    At source.utf8ByteSize (source.utf8ByteSize + 1) (State.start source config) := by
  have hsound : (State.start source config).Sound source.utf8ByteSize := by
    refine ⟨(Cursor.significant_sound ?_).1, fun e he => absurd he List.not_mem_nil⟩
    change 0 + byteSize source.toList = _
    rw [byteSize_toList, Nat.zero_add]
  refine ⟨hsound, rfl, ?_⟩
  have := hsound.offset_add_left
  omega

/-- The first statement of a text reads something. -/
theorem start_moves (source : String) (config : ParseConfig) {node : Node} {t : State}
    (h : outcome (statement (rules (source.utf8ByteSize + 1)))
      { State.start source config with comments := [] } = (.ok (some node), t)) :
    t.current.offset ≠ (State.start source config).current.offset := by
  have hagree : Agree source.utf8ByteSize source.utf8ByteSize (rules (source.utf8ByteSize + 1))
      (watched (fun nodes s => (nodes, s)) (source.utf8ByteSize + 1)) :=
    agree_watched _ (Nat.lt_succ_self _) (Nat.lt_succ_self _)
  have hstart := at_start source config
  have hat : At source.utf8ByteSize (State.start source config).left t :=
    (reads_itemProduction hagree hstart .file []).of_ok h
  exact hat.offset_ne hstart.sound

theorem endsItems_file (s : State) : endsItems .file s = s.isAt .eof := Bool.or_false _

theorem watched_start (escape : List Node → State → List Node × State) (source : String)
    (config : ParseConfig) {m : Nat} (hm : source.utf8ByteSize < m) :
    let start := State.start source config
    let found := (rules (Program.circles source)).items .file start
    (watched escape (m + 1)).items .file start = found ∧
      found.2.Sound source.utf8ByteSize ∧ found.2.isAt .eof := by
  have h : Agree source.utf8ByteSize source.utf8ByteSize (rules (source.utf8ByteSize + 1))
      (watched escape m) := agree_watched escape (Nat.lt_succ_self _) hm
  obtain ⟨hsame, hat, hend⟩ := (at_start source config).watchedAfter h (Nat.le_refl _)
    h.lt_rounds h.lt_rounds' escape .file []
  exact ⟨hsame, hat.sound, (endsItems_file _).symm.trans hend⟩

end Grammar

open Grammar

end SableFront
