import Mathlib.Algebra.Group.Nat.Defs
import ScriptMachine.Proofs.Token.Joining
import ScriptMachine.Proofs.Token.Spelling

/-!
# A source is tiled

The tokens and the problems of a source, merged by their places, account for every byte of it.
Between two of them, before the first and behind the last there are only blanks and comments. The
text of a token spells it and is the longest that does, a wrong character starts no token, and a
string or a comment that is not closed runs to the end. Lines count the newlines before a span, up
to the 32 bits that they have.
-/

namespace ScriptMachine.Token

open Source

/-- A token or a problem of a source, with its place. -/
inductive Item
  | token (l : Lexeme)
  | problem (p : Located Problem)

namespace Item

def span : Item → Span
  | token l => l.span
  | problem p => p.span

def line : Item → UInt32
  | token l => l.line
  | problem p => p.line

def token? : Item → Option Lexeme
  | token l => some l
  | problem _ => none

def problem? : Item → Option (Located Problem)
  | token _ => none
  | problem p => some p

/-- An item is what its text says in front of the text after it. -/
def Fits : Item → List Char → List Char → Prop
  | token l, piece, after =>
    Spells piece l.token ∧ Longest piece after ∧ ¬ OpensComment (piece ++ after)
  | problem p, piece, after => Wrong piece after p.kind

end Item

/-- The items of the rest of a source, with the text before it: each item stands behind a gap, and
after the last one there is only a gap. -/
inductive Tiling : List Char → List Char → List Item → Prop
  | done {before gap : List Char} (hgap : Skipped gap []) : Tiling before gap []
  | next {before gap piece after : List Char} {item : Item} {items : List Item}
      (hgap : Skipped gap (piece ++ after)) (hfits : item.Fits piece after)
      (hspan : item.span = ⟨byteLength (before ++ gap), byteLength (before ++ gap ++ piece)⟩)
      (hline : item.line = (1 + (before ++ gap).count '\n').toUInt32)
      (h : Tiling (before ++ gap ++ piece) after items) :
      Tiling before (gap ++ (piece ++ after)) (item :: items)

/-- Items that account for a source and are what was read of it. -/
structure Reading.AccountsFor (source : String) (r : Reading) (items : List Item) : Prop where
  tokens : r.tokens.toList = items.filterMap Item.token?
  problems : r.problems.toList = items.filterMap Item.problem?
  ordered : items.Pairwise fun i j => i.span.stop ≤ j.span.start
  nonempty : ∀ i ∈ items, i.span.start < i.span.stop
  whole : ∀ i ∈ items, (String.Pos.Raw.mk i.span.start).IsValid source ∧
    (String.Pos.Raw.mk i.span.stop).IsValid source
  /-- No line of a source that is shorter than 4 GiB is cut off. -/
  lines : source.utf8ByteSize < 2 ^ 32 → ∀ i ∈ items, ∃ before after,
    source.toList = before ++ after ∧ i.span.start = byteLength before ∧
      i.line.toNat = 1 + before.count '\n'
  tiling : Tiling [] source.toList items

variable {before text : List Char} {items : List Item} {item : Item}

/-! ### Tilings -/

/-- What is skipped in front of a tiled text belongs to the gap before its first item. -/
theorem Tiling.skip {taken rest : List Char} (hskip : ∀ gap after, rest = gap ++ after →
      Skipped gap after → Skipped (taken ++ gap) after)
    (h : Tiling (before ++ taken) rest items) : Tiling before (taken ++ rest) items := by
  cases h with
  | done hgap => exact .done (hskip rest [] (List.append_nil _).symm hgap)
  | @next _ gap piece after item items hgap hfits hspan hline h =>
    rw [List.append_assoc before taken gap] at hspan hline h
    rw [← List.append_assoc]
    exact .next (hskip gap _ rfl hgap) hfits hspan hline h

/-- The items that reading the rest of a source adds. -/
theorem exists_tiling (before text : List Char) (done : Reading) :
    ∃ items, (readFrom (byteLength before) (1 + before.count '\n') done text).tokens.toList =
        done.tokens.toList ++ items.filterMap Item.token? ∧
      (readFrom (byteLength before) (1 + before.count '\n') done text).problems.toList =
        done.problems.toList ++ items.filterMap Item.problem? ∧ Tiling before text items := by
  generalize hoffset : byteLength before = offset
  generalize hline : 1 + before.count '\n' = line
  fun_induction readFrom offset line done text generalizing before with
  | case1 => exact ⟨[], by simp, by simp, .done .nil⟩
  | case2 offset line done c cs first stop done' ih =>
    obtain ⟨items, htokens, hproblems, htiling⟩ := ih (before ++ first.taken)
      (by rw [byteLength_append, hoffset]) (by rw [List.count_append, ← hline, Nat.add_assoc])
    have hsound : first.Sound := cut_sound c cs
    have hcut : first.taken ++ first.rest = c :: cs := cut_append c cs
    have hspan : (⟨offset, stop⟩ : Span) =
        ⟨byteLength (before ++ []), byteLength (before ++ [] ++ first.taken)⟩ := by
      simp [stop, hoffset]
    -- a token or a problem is an item without a gap before it
    have hitem (item : Item) (hspan' : item.span = ⟨offset, stop⟩)
        (hline' : item.line = line.toUInt32)
        (hfits : item.Fits first.taken first.rest) :
        Tiling before (first.taken ++ first.rest) (item :: items) :=
      .next .nil hfits (hspan'.trans hspan) (by simp [hline', ← hline]) (by simpa using htiling)
    rw [← hcut]
    unfold Cut.Sound at hsound
    cases hpiece : first.piece with
    | skipped =>
      simp only [hpiece] at hsound
      simp only [done', hpiece] at htokens hproblems ⊢
      exact ⟨items, htokens, hproblems, htiling.skip hsound⟩
    | token t =>
      simp only [hpiece] at hsound
      simp only [done', hpiece] at htokens hproblems ⊢
      refine ⟨.token ⟨t, ⟨offset, stop⟩, line.toUInt32⟩ :: items, ?_, hproblems, hitem _ rfl rfl hsound⟩
      simpa [Item.token?] using htokens
    | problem p =>
      simp only [hpiece] at hsound
      simp only [done', hpiece] at htokens hproblems ⊢
      refine ⟨.problem ⟨p, ⟨offset, stop⟩, line.toUInt32⟩ :: items, htokens, ?_, hitem _ rfl rfl hsound⟩
      simpa [Item.problem?] using hproblems

/-! ### Places of the items -/

/-- No item is empty. -/
theorem Item.Fits.ne_nil {piece after : List Char} (h : item.Fits piece after) : piece ≠ [] := by
  cases item with
  | token l => exact h.1.ne_nil
  | problem p => exact Wrong.ne_nil h

/-- A character has a byte at least. -/
theorem byteLength_pos {cs : List Char} (h : cs ≠ []) : 0 < byteLength cs := by
  obtain ⟨c, cs, rfl⟩ := List.exists_cons_of_ne_nil h
  have := c.utf8Size_pos
  rw [byteLength_cons]
  omega

/-- Each item of a tiled text stands behind the text before it. -/
theorem Tiling.stands {source : List Char} (hsource : source = before ++ text)
    (h : Tiling before text items) : ∀ i ∈ items, byteLength before ≤ i.span.start ∧
      ∃ piece, piece ≠ [] ∧ Stands source i.span i.line piece := by
  induction h with
  | done => simp
  | @next before gap piece after item items hgap hfits hspan hline h ih =>
    have hstart : item.span.start = byteLength (before ++ gap) := by rw [hspan]
    have hstop : item.span.stop = byteLength (before ++ gap ++ piece) := by rw [hspan]
    have hplace : source = before ++ gap ++ piece ++ after := by simp [hsource]
    intro i hi
    rcases List.mem_cons.mp hi with rfl | hi
    · rw [hstart, byteLength_append]
      exact ⟨Nat.le_add_right _ _, piece, hfits.ne_nil, _, after, hplace, hstart, hstop, hline⟩
    · obtain ⟨hle, hpiece⟩ := ih hplace i hi
      rw [byteLength_append, byteLength_append] at hle
      exact ⟨by omega, hpiece⟩

/-- The items of a tiled text stand in order. -/
theorem Tiling.ordered (h : Tiling before text items) :
    items.Pairwise fun i j => i.span.stop ≤ j.span.start := by
  induction h with
  | done => exact .nil
  | next hgap hfits hspan hline h ih =>
    refine .cons (fun j hj => ?_) ih
    rw [hspan]
    exact (h.stands rfl j hj).1

/-- The tokens and the problems of a source account for all of it. -/
theorem read_accounts_for_source (source : String) :
    ∃ items, (read source).AccountsFor source items := by
  obtain ⟨items, htokens, hproblems, htiling⟩ := exists_tiling [] source.toList ⟨#[], #[]⟩
  have hstands := htiling.stands (rfl : source.toList = [] ++ source.toList)
  refine ⟨items, ?_, ?_, htiling.ordered, fun i hi => ?_, fun i hi => ?_, fun hshort i hi => ?_,
    htiling⟩
  · simpa [read] using htokens
  · simpa [read] using hproblems
  · obtain ⟨-, piece, hne, before, after, -, hstart, hstop, -⟩ := hstands i hi
    have := byteLength_pos hne
    rw [hstart, hstop, byteLength_append]
    omega
  · obtain ⟨-, piece, -, hplace⟩ := hstands i hi
    exact hplace.whole.2
  · obtain ⟨-, piece, hne, before, after, hsource, hstart, -, hline⟩ := hstands i hi
    rw [List.append_assoc] at hsource
    refine ⟨before, piece ++ after, hsource, hstart, ?_⟩
    have hsize : source.utf8ByteSize = byteLength before + (byteLength piece + byteLength after) := by
      rw [← byteLength_append, ← byteLength_append, ← hsource, ← utf8ByteSize_ofList,
        String.ofList_toList]
    have hpiece : 0 < byteLength piece := byteLength_pos hne
    have hcount : before.count '\n' ≤ byteLength before :=
      Nat.le_trans List.count_le_length (length_le_byteLength before)
    rw [hline]
    exact UInt32.toNat_ofNat_of_lt (by rw [UInt32.size]; omega)

end ScriptMachine.Token
