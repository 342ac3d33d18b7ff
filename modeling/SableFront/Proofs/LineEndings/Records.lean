import SableFront.Proofs.LineEndings.Token
import SableFront.Proofs.Tiling.Comments
import SableFront.Proofs.Tiling.Filtering

/-!
# Line endings: records

What a program of a text and that of the text with returns have to show is compared token by token.
Both trees look alike on their lines, so tokens that are no comments have the same records. The
comments of both texts correspond to each other, one by one (`Text.corresponds_comments`). Comments
that look alike start at one place, and at each place of a text one comment at most starts, so
comments that look alike do correspond.

So the records of the text with returns are those of the text, but that of a line comment before a
newline is longer by one (`Highlight.Record.inReturns`). That leaves the place and the category of a
record as they are, and so makes no difference to which records are shown, in which order.
-/

namespace SableFront

open Text Highlight

/-! ### Comments of both texts -/

/-- The token is a line comment before a newline: it stops before the end of a text of so many
bytes. -/
def Token.meetsNewline (total : Nat) (t : Token) : Bool :=
  t.kind == .lineComment && decide (t.stop < total)

theorem Token.meetsNewline_iff {total : Nat} {t : Token} :
    t.meetsNewline total ↔ t.kind = .lineComment ∧ t.stop < total := by
  rw [meetsNewline, Bool.and_eq_true, beq_iff_eq, decide_eq_true_eq]

/-- Comments at one place of both texts, and what their records have in common. -/
structure Token.Corresponds (total : Nat) (t t' : Token) : Prop where
  start : t.span.start = t'.span.start
  records : ¬ t.meetsNewline total → ∀ modifiers,
    tokenRecords t' .comment modifiers = tokenRecords t .comment modifiers
  longer : t.meetsNewline total → ∀ modifiers, ∃ length,
    tokenRecords t .comment modifiers = [⟨t.span.start, length, .comment, modifiers⟩] ∧
    tokenRecords t' .comment modifiers = [⟨t.span.start, length + 1, .comment, modifiers⟩]

namespace Cursor

variable {c c' : Cursor} {total : Nat}

theorem meetsNewline_next (htotal : c.offset + byteSize c.rest = total) :
    c.next.1.meetsNewline total ↔ c.next.1.kind = .lineComment ∧ c.next.2.rest ≠ [] := by
  obtain ⟨hoffset, hstop, hbehind⟩ := c.next_offset
  rw [Token.meetsNewline_iff, Token.stop, hoffset, hstop, ← htotal, ← hbehind]
  refine and_congr_right fun _ => ?_
  cases c.next.2.rest with
  | nil => simp
  | cons d ds =>
    have := d.utf8Size_pos
    simp only [byteSize_cons, ne_eq, List.cons_ne_nil, not_false_eq_true, iff_true]
    omega

theorem Paired.corresponds (h : Paired c.next c'.next) (htotal : c.offset + byteSize c.rest = total)
    (hcomment : c.next.1.kind.isComment) : c.next.1.Corresponds total c'.next.1 := by
  have hmeets := meetsNewline_next htotal
  refine ⟨?_, fun hend => h.records hcomment fun hkind => ?_, fun hnewline => ?_⟩
  · have halike : View.lined.token c.next.1 = View.lined.token c'.next.1 := by
      refine h.alike (fun hblank => ?_) fun hblank => ?_
      all_goals
        rw [hblank] at hcomment
        cases hcomment
    rw [← (View.lined_places c.next.1).1, halike, (View.lined_places c'.next.1).1]
  · by_contra hmore
    exact hend (hmeets.mpr ⟨hkind, hmore⟩)
  · obtain ⟨hkind, hmore⟩ := hmeets.mp hnewline
    exact h.longer hkind hmore

/-- The comments ahead of cursors that are abreast correspond to each other. -/
theorem Abreast.comments (h : c.Abreast c') (htotal : c.offset + byteSize c.rest = total) :
    List.Forall₂ (Token.Corresponds total) (commentsIn c.tokens) (commentsIn c'.tokens) := by
  -- on the tokens of the text with returns, which has a blank more for each return
  induction c' using tokens.induct generalizing c with
  | case1 c' hrest' =>
    rcases h.progress with ⟨hrest, -, -⟩ | ⟨hmore, -, -⟩ | ⟨-, hmore, -⟩
    · rw [tokens_nil hrest, tokens_nil hrest', next_nil hrest, next_nil hrest']
      exact .nil
    · exact absurd hrest' hmore
    · exact absurd hrest' hmore
  | case2 c' hrest' ih =>
    rcases h.progress with ⟨-, hend, -⟩ | ⟨-, hblank, habreast⟩ | ⟨hrest, -, hpaired⟩
    · exact absurd hend hrest'
    · have hskip : commentsIn c'.tokens = commentsIn c'.next.2.tokens := by
        rw [tokens_cons hrest', commentsIn, List.filter_cons_of_neg (by rw [hblank]; decide)]
        rfl
      rw [hskip]
      exact ih habreast htotal
    · have hbehind := ih hpaired.abreast (c.next_offset.2.2.trans htotal)
      rw [tokens_cons hrest', tokens_cons hrest, commentsIn, commentsIn, List.filter_cons,
        List.filter_cons, ← hpaired.kind]
      split
      · rename_i hcomment
        exact .cons (hpaired.corresponds htotal hcomment) hbehind
      · exact hbehind

theorem size_pos_of_mem_tokens {t : Token} (ht : t ∈ c.tokens) (hkind : t.kind ≠ .eof) :
    0 < t.size := by
  obtain ⟨d, -, rfl⟩ := exists_next_of_mem_tokens (P := fun _ => True) (fun _ _ => trivial) trivial ht
  exact (next_of_ne_nil (mt d.kind_next_eq_eof.mpr hkind)).2

end Cursor

namespace Text

variable {cs : List Char} {t u : Token}

/-- The comments of both texts correspond to each other. -/
theorem corresponds_comments (h : '\r' ∉ cs) :
    List.Forall₂ (Token.Corresponds (byteSize cs)) (comments cs) (comments (withReturns cs)) := by
  have hsame : (Cursor.start cs).Same (Cursor.start (withReturns cs)) := ⟨h, rfl, rfl⟩
  exact (Cursor.Abreast.same hsame).comments (Nat.zero_add _)

theorem isComment_of_mem_comments (ht : t ∈ comments cs) : t.kind.isComment := (List.mem_filter.mp ht).2

theorem size_pos_of_mem_comments (ht : t ∈ comments cs) : 0 < t.size := by
  refine Cursor.size_pos_of_mem_tokens (List.mem_filter.mp ht).1 fun heof => ?_
  have hcomment := isComment_of_mem_comments ht
  rw [heof] at hcomment
  cases hcomment

/-- No comment starts in another one. -/
theorem eq_of_mem_comments (ht : t ∈ comments cs) (hu : u ∈ comments cs) (hle : t.offset ≤ u.offset)
    (hlt : u.offset < t.stop) : t = u := by
  have hpos := size_pos_of_mem_comments hu
  refine (apart_of_mem_comments ht hu).resolve_right ?_
  rintro (hbefore | hbefore)
  · omega
  · rw [Token.stop] at hbefore
    omega

/-- Boundaries at one position are the same. -/
theorem IsBoundary.eq_of_positionAt {a b : Nat} (ha : IsBoundary cs a) (hb : IsBoundary cs b)
    (h : positionAt cs a = positionAt cs b) : a = b := by
  have hfound := ha.offsetAt?
  rw [h, hb.offsetAt?] at hfound
  exact (Option.some.inj hfound).symm

/-- At each place one comment at most starts. -/
theorem eq_of_start_comments (ht : t ∈ comments cs) (hu : u ∈ comments cs)
    (h : t.span.start = u.span.start) : t = u := by
  have hcut := cutFrom_of_mem_comments ht
  have hcut' := cutFrom_of_mem_comments hu
  have hpos := size_pos_of_mem_comments ht
  rw [hcut.span, hcut'.span] at h
  have hoffset := hcut.boundary_offset.eq_of_positionAt hcut'.boundary_offset h
  refine eq_of_mem_comments ht hu (Nat.le_of_eq hoffset) ?_
  rw [Token.stop]
  omega

/-- And none where a record of another one does. -/
theorem eq_of_start_record (ht : t ∈ comments cs) (hu : u ∈ comments cs) {r : Record}
    {category : Category} {modifiers : List Modifier} (hr : r ∈ tokenRecords t category modifiers)
    (h : u.span.start = r.start) : t = u := by
  have hcut := cutFrom_of_mem_comments hu
  obtain ⟨a, b, ha, hb, hcovers⟩ := covers_of_mem_tokenRecords (cutFrom_of_mem_comments ht) hr
  rw [hcut.span, hcovers.start] at h
  have hoffset := hcut.boundary_offset.eq_of_positionAt hcovers.boundary_start h
  have hlt : a < b := by
    refine Nat.lt_of_le_of_ne hcovers.le fun heq => ?_
    have hstop : r.stop = r.start := by rw [hcovers.stop, hcovers.start, heq]
    have hsame := congrArg Position.character hstop
    have hlength := hcovers.length
    change r.start.character + r.length = r.start.character at hsame
    omega
  exact eq_of_mem_comments ht hu (by omega) (by omega)

end Text

/-! ### Records of both texts -/

namespace Highlight

/-- What becomes of a record in the text with returns: that of a line comment before a newline is
longer by one. -/
def Record.inReturns (source : String) (r : Record) : Record :=
  if r.category = .comment ∧ (tokenize source).any fun t =>
      t.meetsNewline source.utf8ByteSize && t.span.start == r.start then
    { r with length := r.length + 1 }
  else r

variable {source : String} {r : Record} {t t' : Token} {modifiers : List Modifier}

theorem start_inReturns (source : String) (r : Record) : (r.inReturns source).start = r.start := by
  unfold Record.inReturns
  split <;> rfl

theorem category_inReturns (source : String) (r : Record) :
    (r.inReturns source).category = r.category := by
  unfold Record.inReturns
  split <;> rfl

theorem inReturns_of_category (h : r.category ≠ .comment) : r.inReturns source = r :=
  if_neg fun hcomment => h hcomment.1

/-- A record of a comment becomes longer only if the comment meets a newline. -/
theorem inReturns_of_not_meetsNewline (ht : t ∈ Text.comments source.toList)
    (hr : r ∈ tokenRecords t .comment modifiers) (hmeets : ¬ t.meetsNewline source.utf8ByteSize) :
    r.inReturns source = r := by
  refine if_neg fun hlonger => hmeets ?_
  obtain ⟨u, hu, hboth⟩ := List.any_eq_true.mp hlonger.2
  obtain ⟨hmeets', hstart⟩ := Bool.and_eq_true_iff.mp hboth
  have hcomment : u.kind.isComment := by
    rw [(Token.meetsNewline_iff.mp hmeets').1]
    rfl
  obtain rfl := Text.eq_of_start_record ht (List.mem_filter.mpr ⟨hu, hcomment⟩) hr (beq_iff_eq.mp hstart)
  exact hmeets'

theorem map_eq_self {α : Type} {f : α → α} {as : List α} (h : ∀ a ∈ as, f a = a) : as.map f = as :=
  (List.map_congr_left h).trans as.map_id

theorem exists_of_forall₂ {α β : Type} {R : α → β → Prop} {as : List α} {bs : List β}
    (h : List.Forall₂ R as bs) {a : α} (ha : a ∈ as) : ∃ b ∈ bs, R a b := by
  induction h with
  | nil => cases ha
  | cons hab _ ih =>
    rcases List.mem_cons.mp ha with rfl | ha
    · exact ⟨_, List.mem_cons_self, hab⟩
    · obtain ⟨b, hb, hR⟩ := ih ha
      exact ⟨b, List.mem_cons_of_mem _ hb, hR⟩

/-- **Comments at one place of both texts** have the same records, but for that of a line comment
before a newline. -/
theorem tokenRecords_comment (hreturn : '\r' ∉ source.toList) (ht : t ∈ Text.comments source.toList)
    (ht' : t' ∈ Text.comments (withReturns source.toList)) (hstart : t.span.start = t'.span.start)
    (modifiers : List Modifier) :
    tokenRecords t' .comment modifiers =
      (tokenRecords t .comment modifiers).map (Record.inReturns source) := by
  obtain ⟨u, hu, hcorresponds⟩ := exists_of_forall₂ (Text.corresponds_comments hreturn) ht
  obtain rfl : u = t' := Text.eq_of_start_comments hu ht' (hcorresponds.start.symm.trans hstart)
  rw [byteSize_toList] at hcorresponds
  by_cases hmeets : t.meetsNewline source.utf8ByteSize
  · obtain ⟨length, hone, hone'⟩ := hcorresponds.longer hmeets modifiers
    have hsome : (tokenize source).any fun u =>
        u.meetsNewline source.utf8ByteSize && u.span.start == t.span.start :=
      List.any_eq_true.mpr ⟨t, (List.mem_filter.mp ht).1, by rw [hmeets, beq_self_eq_true]; rfl⟩
    rw [hone, hone', List.map_singleton, Record.inReturns, if_pos ⟨rfl, hsome⟩]
  · rw [hcorresponds.records hmeets modifiers]
    exact (map_eq_self fun r hr => inReturns_of_not_meetsNewline ht hr hmeets).symm

/-- Only comments are shown as such. -/
theorem Category.Fits.isComment {k : Kind} (h : Category.comment.Fits k) : k.isComment := by
  cases k
  case lineComment | blockComment => rfl
  case keyword k =>
    unfold Fits at h
    split at h
    · cases h
    · unfold categoryOfKind at h
      have hcategory := Option.some_inj.mp h
      split at hcategory <;> cases hcategory
  all_goals cases h

theorem Category.Fits.eq_comment {k : Kind} {category : Category} (h : category.Fits k)
    (hcomment : k.isComment) : category = .comment := by
  cases k
  case lineComment | blockComment => exact (Option.some.inj h).symm
  all_goals cases hcomment

/-- Invalid text is not shown. -/
theorem Category.Fits.ne_invalid {k : Kind} {category : Category} (h : category.Fits k) :
    k ≠ .invalid := by
  rintro rfl
  cases h

/-- **Tokens that look alike on their lines have the same records in both texts**, but for that of a
line comment before a newline. -/
theorem tokenRecords_alike {category : Category} (hreturn : '\r' ∉ source.toList)
    (ht : t.kind.isComment → t ∈ Text.comments source.toList)
    (ht' : t'.kind.isComment → t' ∈ Text.comments (withReturns source.toList))
    (hfits : category.Fits t.kind) (halike : View.lined.Alike t t') (modifiers : List Modifier) :
    tokenRecords t' category modifiers =
      (tokenRecords t category modifiers).map (Record.inReturns source) := by
  have hkind := kind_alike halike
  cases hcomment : t.kind.isComment with
  | true =>
    have hstart : t.span.start = t'.span.start := by
      rw [← (View.lined_places t).1, show View.lined.token t = View.lined.token t' from halike,
        (View.lined_places t').1]
    rw [hfits.eq_comment hcomment]
    exact tokenRecords_comment hreturn (ht hcomment) (ht' (hkind ▸ hcomment)) hstart modifiers
  | false =>
    have hclosed : t.kind.isOpenEnded = false := by
      rw [Kind.isOpenEnded, hcomment, Bool.false_or, beq_eq_false_iff_ne]
      exact hfits.ne_invalid
    have hother : category ≠ .comment := by
      rintro rfl
      rw [hfits.isComment] at hcomment
      cases hcomment
    have hsame : tokenRecords t' category modifiers = tokenRecords t category modifiers := by
      have hseen : View.lined.token t = View.lined.token t' := halike
      rw [View.lined_token hclosed, View.lined_token (hkind ▸ hclosed)] at hseen
      obtain ⟨-, -, hspan, -, -, hwidth⟩ := Token.mk.inj hseen
      rw [tokenRecords, tokenRecords, ← hspan, ← hwidth, ← text?_alike halike hclosed]
    rw [hsame, map_eq_self fun r hr => inReturns_of_category ?_]
    rw [category_of_mem_tokenRecords hr]
    exact hother

end Highlight

end SableFront
