import SableFront.Proofs.Progress.Reading

/-!
# Simulation: lists that never step over a token

A list of statements steps over a token if a statement was given although nothing was read, and that
it tells from offsets. It never has to: so *plain* lists, which do not look, do the same
(`plain_start`), and no decision in reading a text depends on where its tokens stand.
-/

namespace SableFront.Grammar

/-- After a statement that has read something: a semicolon is read, and comments are attached to the
node. -/
def plainFinish (leading : List Token) (n : Node) (s : State) : Node × State :=
  let s := if s.isAt (.punctuation .semicolon) then s.advance else s
  let (trailing, waiting) := trailingComments s n
  (n.modify fun d => { d with leading, trailing }, { s with comments := waiting })

/-- One item of a plain list, with the comments before it. -/
def plainItem (rules : Rules) (context : Context) (s : State) : List Node × State :=
  let (leading, nodes) := leadingComments s
  let standalone := nodes ++ leading.map .ofComment
  match (itemProduction rules context s).run { s with comments := [] } with
  | (.ok (some n), after) =>
    let (n, after) := plainFinish leading n after
    (nodes ++ [n], after)
  | (.ok none, after) => (standalone, (after.record (after.error .incorrectToken none)).advance)
  | (.error e, after) =>
    let (rest, after) := recover e s.symbols.current after
    (standalone ++ rest, after)

/-- The items of a plain list, after those in `nodes`. -/
def plainAfter (rules : Rules) (context : Context) :
    Nat → List Node → State → List Node × State
  | 0, nodes, s => (nodes, s)
  | n + 1, nodes, s =>
    let s := skipSemicolons rules.rounds s
    if endsItems context s then
      (nodes ++ s.comments.map .ofComment, { s with comments := [] })
    else
      let (found, s) := plainItem rules context s
      plainAfter rules context n (nodes ++ found) s

/-- The items of a plain list of statements. -/
def plainItems (rules : Rules) (context : Context) : StateM State (List Node) :=
  plainAfter rules context rules.rounds []

/-- The productions with some circles left, when all lists of statements are plain. -/
def plain : Nat → Rules
  | 0 => exhausted
  | n + 1 => (plain n).closed (n + 1) (plainItems (plain n))

variable {total n b : Nat} {s : State} {r r' : Rules}

/-- Where a statement has read something nothing is stepped over. -/
theorem plainFinish_eq {start : Nat} (h : s.current.offset ≠ start) (leading : List Token)
    (node : Node) : plainFinish leading node s = finishItem start leading node s := by
  have hstep : stepOver start s = s := by
    unfold stepOver
    rw [if_pos (by simp [h])]
  unfold plainFinish finishItem
  rw [hstep]

theorem plainItem_eq (h : Agree total n r r') (hs : At total (n + 1) s) (context : Context) :
    plainItem r' context s = item r' context s := by
  have hrun := reads_itemProduction h hs context []
  unfold plainItem item
  dsimp only
  rcases hrun with ⟨v, t, -, hq, hv⟩ | ⟨e, t, -, hq, -⟩
  all_goals
    change (itemProduction r' context s).run { s with comments := [] } = _ at hq
    rw [hq]
  cases v with
  | none => rfl
  | some node =>
    have hat : At total s.left t := hv
    dsimp only
    rw [plainFinish_eq (hat.offset_ne hs.sound)]

/-- A plain list does what the list does. -/
theorem At.plainAfter (h : Agree total n r r') (hs : At total b s) (hb : b ≤ n + 1) {k k' : Nat}
    (hk : b ≤ k) (hk' : b ≤ k') (context : Context) (nodes : List Node) :
    plainAfter r' context k' nodes s = itemsAfter r context k nodes s := by
  -- on the bound: each round that does not end the list goes below it
  induction b generalizing s k k' nodes with
  | zero => exact absurd hs.left (Nat.not_lt_zero _)
  | succ b ih =>
    obtain ⟨k, rfl⟩ : ∃ j, k = j + 1 := ⟨k - 1, by omega⟩
    obtain ⟨k', rfl⟩ : ∃ j, k' = j + 1 := ⟨k' - 1, by omega⟩
    obtain ⟨hskip, hat⟩ := hs.skipSemicolons (Nat.le_trans hb h.lt_rounds)
      (Nat.le_trans hb h.lt_rounds')
    unfold Grammar.plainAfter itemsAfter
    dsimp only
    rw [hskip]
    generalize Grammar.skipSemicolons r.rounds s = t at hat ⊢
    split
    · rfl
    · rename_i hend
      have heof : t.isAt .eof = false := by
        rw [Bool.not_eq_true, endsItems, Bool.or_eq_false_iff] at hend
        exact hend.1
      have hleft : t.left ≤ b :=
        Nat.le_trans (Nat.le_of_lt_succ hat.left) (Nat.le_of_lt_succ hs.left)
      have hatn : At total (n + 1) t := hat.mono (Nat.le_trans hs.left hb)
      obtain ⟨hitem, hnext⟩ : Grammar.item r' context t = Grammar.item r context t ∧
          At total t.left (Grammar.item r context t).2 := At.item h hatn heof
      rw [plainItem_eq h hatn, hitem]
      exact ih (hnext.mono hleft) (Nat.le_of_succ_le hb) (Nat.le_of_succ_le_succ hk)
        (Nat.le_of_succ_le_succ hk') _

theorem keeps_plainItems (h : Agree total n r r') (context : Context) :
    Keeps total (n + 1) (liftM (items r context) : Production _)
      (liftM (plainItems r' context)) := by
  intro b hb s hs
  have hk := Nat.le_trans hb h.lt_rounds
  have hk' := Nat.le_trans hb h.lt_rounds'
  have hsame := hs.plainAfter h hb hk hk' context []
  obtain ⟨-, hat, -⟩ := hs.watchedAfter h hb hk hk' (fun nodes s => (nodes, s)) context []
  exact .result _ _ rfl (congrArg (fun found => (Except.ok found.1, found.2)) hsame) hat

theorem agree_plain {m m' : Nat} (hm : n < m) (hm' : n < m') : Agree total n (rules m) (plain m') :=
  agree_of_items plainItems (fun _ => rfl) keeps_plainItems hm hm'

/-- **Nothing is ever stepped over.** With enough circles and rounds a text is read by plain lists as
it is read. -/
theorem plain_start (source : String) (config : ParseConfig) {m : Nat}
    (hm : source.utf8ByteSize < m) :
    (plain (m + 1)).items .file (State.start source config) =
      (rules (Program.circles source)).items .file (State.start source config) := by
  have h : Agree source.utf8ByteSize source.utf8ByteSize (rules (source.utf8ByteSize + 1)) (plain m) :=
    agree_plain (Nat.lt_succ_self _) hm
  exact (at_start source config).plainAfter h (Nat.le_refl _) h.lt_rounds h.lt_rounds' .file []

end SableFront.Grammar
