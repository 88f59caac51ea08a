import ScriptMachine.Proofs.Token.Pieces
import ScriptMachine.Source.Lines

/-!
# Places in a source

The pieces that a source is cut into tile it: each stands behind the ones before it, so the tokens
and the problems have places in the order of the source, their spans take whole characters, and
their lines are those that the lines of the source give for the first byte of the span. A name
stands where the source spells it.
-/

namespace ScriptMachine

namespace Source

variable {cs ds : List Char}

/-- Bytes are counted from any number on. -/
theorem byteLength_from (n : Nat) (cs : List Char) :
    cs.foldl (fun n c => n + c.utf8Size) n = n + byteLength cs := by
  induction cs generalizing n with
  | nil => rfl
  | cons c cs ih => rw [byteLength, List.foldl_cons, List.foldl_cons, ih, ih (0 + _)]; omega

/-- No character has no bytes. -/
@[simp] theorem byteLength_nil : byteLength [] = 0 := rfl

/-- A text has the bytes of its first character and of the others. -/
@[simp] theorem byteLength_cons (c : Char) : byteLength (c :: cs) = c.utf8Size + byteLength cs := by
  rw [byteLength, List.foldl_cons, byteLength_from, Nat.zero_add]

/-- Texts in sequence have the bytes of both. -/
@[simp] theorem byteLength_append : byteLength (cs ++ ds) = byteLength cs + byteLength ds := by
  rw [byteLength, List.foldl_append, byteLength_from, ← byteLength]

/-- A string has the bytes of its characters. -/
theorem utf8ByteSize_ofList (cs : List Char) : (String.ofList cs).utf8ByteSize = byteLength cs := by
  induction cs with
  | nil => rfl
  | cons c cs ih =>
    rw [byteLength_cons, ← ih, String.ofList_cons, String.utf8ByteSize_append,
      String.utf8ByteSize_singleton]

/-- A character takes at least one byte. -/
theorem length_le_byteLength (cs : List Char) : cs.length ≤ byteLength cs := by
  induction cs with
  | nil => exact Nat.le_refl 0
  | cons c cs ih =>
    have hsize := c.utf8Size_pos
    rw [byteLength_cons, List.length_cons]
    omega

/-- A text with its place in a source: the text before it and the text after it. -/
structure Stands (source : List Char) (span : Span) (line : UInt32) (piece : List Char) : Prop where
  place : ∃ before after, source = before ++ piece ++ after ∧ span.start = byteLength before ∧
    span.stop = byteLength (before ++ piece) ∧ line = (1 + before.count '\n').toUInt32

/-! ### Lines -/

namespace Lines

/-- One more line counts if it starts early enough. -/
theorem upTo_push (limit : Nat) (lines : Array Line) (l : Line) :
    upTo limit (lines.push l) = upTo limit lines + if l.start ≤ limit then 1 else 0 := by
  rw [upTo, Array.foldl_push, ← upTo]
  split <;> rfl

/-- No line that is cut off behind an offset starts at it or before. -/
theorem upTo_cutLines_of_lt {limit start offset : Nat} {text : List Char} {done : Array Line}
    (hlimit : limit < offset) : upTo limit (cutLines start offset text done cs) =
      upTo limit done + if start ≤ limit then 1 else 0 := by
  induction cs generalizing start offset text done with
  | nil => rw [cutLines, upTo_push]
  | cons c cs ih =>
    have hnext : limit < offset + c.utf8Size := by omega
    rw [cutLines]
    split
    · rw [ih hnext, upTo_push, if_neg (Nat.not_le.mpr hnext), Nat.add_zero]
    · rw [ih hnext]

/-- Up to an offset as many lines start as there are newlines before it, and one more. -/
theorem upTo_cutLines (cs ds : List Char) {start offset : Nat} (text : List Char)
    (done : Array Line) (hstart : start ≤ offset) :
    upTo (offset + byteLength cs) (cutLines start offset text done (cs ++ ds)) =
      upTo (offset + byteLength cs) done + 1 + cs.count '\n' := by
  induction cs generalizing start offset text done with
  | nil =>
    cases ds with
    | nil => simp [cutLines, upTo_push, hstart]
    | cons d ds =>
      have hsize := d.utf8Size_pos
      rw [List.nil_append, byteLength_nil, Nat.add_zero, cutLines]
      split
      · rw [upTo_cutLines_of_lt (by omega), upTo_push, if_pos hstart, if_neg (by omega)]
        rfl
      · rw [upTo_cutLines_of_lt (by omega), if_pos hstart]
        rfl
  | cons c cs ih =>
    rw [List.cons_append, cutLines, byteLength_cons, ← Nat.add_assoc]
    split
    · next hc =>
      have hbefore : start ≤ offset + c.utf8Size + byteLength cs := by omega
      rw [ih _ _ (Nat.le_refl _), upTo_push, if_pos hbefore, hc, List.count_cons_self]
      omega
    · next hc =>
      rw [ih _ _ (by omega), List.count_cons_of_ne hc]

end Lines

/-- The line of a text is that of its first byte. -/
theorem Stands.line_eq {source : String} {span : Span} {line : UInt32} {piece : List Char}
    (h : Stands source.toList span line piece) :
    line = (Lines.ofText source).lineOf span.start := by
  obtain ⟨before, after, hsource, hstart, -, hline⟩ := h.place
  have hcount := Lines.upTo_cutLines before (piece ++ after) [] #[] (Nat.zero_le 0)
  rw [Nat.zero_add, ← List.append_assoc, ← hsource, ← hstart] at hcount
  rw [Lines.lineOf, Lines.ofText, hcount, hline, Lines.upTo, Array.foldl_empty, Nat.zero_add,
    Nat.max_eq_right (Nat.le_add_right 1 _)]

/-- A span of a text takes whole characters. -/
theorem Stands.whole {source : String} {span : Span} {line : UInt32} {piece : List Char}
    (h : Stands source.toList span line piece) : span.start ≤ span.stop ∧
      (String.Pos.Raw.mk span.start).IsValid source ∧
      (String.Pos.Raw.mk span.stop).IsValid source := by
  obtain ⟨before, after, hsource, hstart, hstop, -⟩ := h.place
  have hwhole (front back : List Char) (hcut : source.toList = front ++ back) :
      (String.Pos.Raw.mk (byteLength front)).IsValid source := by
    refine String.Pos.Raw.isValid_iff_exists_append.mpr
      ⟨String.ofList front, String.ofList back, ?_, ?_⟩
    · rw [← String.ofList_append, ← hcut, String.ofList_toList]
    · rw [← utf8ByteSize_ofList]
      rfl
  refine ⟨by rw [hstart, hstop, byteLength_append]; omega, ?_, ?_⟩
  · rw [hstart]
    exact hwhole before (piece ++ after) (by rw [hsource, List.append_assoc])
  · rw [hstop]
    exact hwhole (before ++ piece) after hsource

end Source

namespace Token

open Source

/-- A word is spelled by the characters that it takes. -/
theorem cutWord_spelled {cs : List Char} {spelling : String}
    (h : (cutWord cs).piece = .token (.name spelling)) :
    (cutWord cs).taken = spelling.toList := by
  unfold cutWord at h ⊢
  simp only [Piece.token.injEq] at h
  split at h
  · cases h
  · simp only [Token.name.injEq] at h
    rw [← h, String.toList_ofList]

/-- A name is spelled by the characters that it takes. -/
theorem cut_spelled {c : Char} {cs : List Char} {spelling : String}
    (h : (cut c cs).piece = .token (.name spelling)) : (cut c cs).taken = spelling.toList := by
  unfold cut at h ⊢
  split at h
  · cases h
  split at h
  · exact absurd h cutNumber_ne_name
  split at h
  · next hspace hdigit hstart =>
    rw [if_neg hspace, if_neg hdigit, if_pos hstart]
    exact cutWord_spelled h
  split at h
  · exact absurd h cutString_ne_name
  split at h
  · cases h
  · exact absurd h cutComment_ne_name
  · exact absurd h cutSymbol_ne_name

/-- The tokens and the problems read so far have their places among the first `limit` bytes of a
source, in order. -/
structure Reading.Tiles (source : List Char) (limit : Nat) (r : Reading) : Prop where
  token : ∀ l ∈ r.tokens, l.span.stop ≤ limit ∧ ∃ piece, Stands source l.span l.line piece ∧
    ∀ spelling, l.token = .name spelling → piece = spelling.toList
  problem : ∀ p ∈ r.problems, p.span.stop ≤ limit ∧ ∃ piece, Stands source p.span p.line piece
  tokens : r.tokens.toList.Pairwise fun l l' => l.span.stop ≤ l'.span.start
  problems : r.problems.toList.Pairwise fun p p' => p.span.start ≤ p'.span.start

/-- What is read tiles the source. -/
theorem readFrom_tiles {source text : List Char} (before : List Char) {offset line : Nat}
    {done : Reading} (hsource : source = before ++ text) (hoffset : offset = byteLength before)
    (hline : line = 1 + before.count '\n') (hdone : done.Tiles source offset) :
    (readFrom offset line done text).Tiles source (byteLength source) := by
  fun_induction readFrom offset line done text generalizing before with
  | case1 offset line done =>
    rw [List.append_nil] at hsource
    rw [hoffset, ← hsource] at hdone
    exact hdone
  | case2 offset line done c cs first stop done' =>
    rename_i ih
    have hstop : stop = byteLength (before ++ first.taken) := by
      rw [byteLength_append, ← hoffset]
    have hcut : first.taken ++ first.rest = c :: cs := cut_append c cs
    have hle : offset ≤ stop := Nat.le_add_right _ _
    have hstands : Stands source ⟨offset, stop⟩ line.toUInt32 first.taken :=
      ⟨before, first.rest, by rw [hsource, List.append_assoc, hcut], hoffset, hstop, hline ▸ rfl⟩
    have hmono : done.Tiles source stop :=
      { hdone with
        token := fun l hl => ⟨Nat.le_trans (hdone.token l hl).1 hle, (hdone.token l hl).2⟩
        problem := fun p hp => ⟨Nat.le_trans (hdone.problem p hp).1 hle, (hdone.problem p hp).2⟩ }
    refine ih (before ++ first.taken) ?_ hstop ?_ ?_
    · rw [hsource, List.append_assoc, hcut]
    · rw [hline, List.count_append, Nat.add_assoc]
    · simp only [done']
      split
      · exact hmono
      · next t hpiece =>
        refine { hmono with token := fun l hl => ?_, tokens := ?_ }
        · rcases Array.mem_push.mp hl with hl | rfl
          · exact hmono.token l hl
          · refine ⟨Nat.le_refl _, first.taken, hstands, fun spelling hname => ?_⟩
            exact cut_spelled (hpiece.trans (congrArg Piece.token hname))
        · rw [Array.toList_push]
          refine List.pairwise_append.mpr ⟨hdone.tokens, List.pairwise_singleton _ _, ?_⟩
          intro l hl l' hl'
          rw [List.mem_singleton.mp hl']
          exact (hdone.token l (Array.mem_toList_iff.mp hl)).1
      · next p hpiece =>
        refine { hmono with problem := fun q hq => ?_, problems := ?_ }
        · rcases Array.mem_push.mp hq with hq | rfl
          · exact hmono.problem q hq
          · exact ⟨Nat.le_refl _, first.taken, hstands⟩
        · rw [Array.toList_push]
          refine List.pairwise_append.mpr ⟨hdone.problems, List.pairwise_singleton _ _, ?_⟩
          intro q hq q' hq'
          obtain ⟨hlimit, piece, before', after', -, hstart, hstop', -⟩ :=
            hdone.problem q (Array.mem_toList_iff.mp hq)
          rw [List.mem_singleton.mp hq']
          rw [byteLength_append] at hstop'
          show q.span.start ≤ offset
          omega

/-- What is read of a source tiles it. -/
theorem read_tiles (source : String) :
    (read source).Tiles source.toList (byteLength source.toList) :=
  readFrom_tiles [] rfl rfl rfl
    ⟨by simp, by simp, List.Pairwise.nil, List.Pairwise.nil⟩

end Token

end ScriptMachine
