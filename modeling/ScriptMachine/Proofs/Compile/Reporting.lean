import ScriptMachine.Proofs.Compile.Failing
import ScriptMachine.Proofs.Compile.Placing
import ScriptMachine.Proofs.Compile.Script

/-!
# The reported errors

A source that reading it found problems in, or a declaration of which fails, is refused with at
most twenty errors in the order of the source. The first problems of reading are among them, every
error is about whole characters of the source, and a name that is declared twice is reported at its
second declaration together with the first. The line of an error is that of its span, but for an
error at the end of the input, which has the line of the last token.
-/

namespace ScriptMachine.Compile

variable {source : String} {heap : Heap} {outer : List Handle} {s : State} {e : CompileError}

/-! ### What was read -/

/-- No name in a source is one of the compiler's own. -/
theorem name_not_implicit (source : String) : ∀ l ∈ (Token.read source).tokens, ∀ name, l.token = .name name →
    ¬ Implicit name := by
  intro l hl name hname himplicit
  obtain ⟨hempty, hword⟩ := Token.read_names l hl name hname
  rcases himplicit with rfl | rfl | rfl
  · exact hempty rfl
  · exact absurd hword (by decide)
  · exact absurd hword (by decide)

/-- A source has as many bytes as its characters. -/
theorem byteLength_toList (source : String) :
    Source.byteLength source.toList = source.utf8ByteSize := by
  rw [← Source.utf8ByteSize_ofList, String.ofList_toList]

/-- All places are known where the compiler starts. -/
theorem placed_start (source : String) (heap : Heap) (outer : List Handle) :
    (State.start source heap outer).Placed (Token.read source) source.utf8ByteSize where
  tokens := rfl
  bytes := rfl
  pos := Nat.zero_le _
  locals := fun d hd l hl => by
    obtain rfl := List.mem_singleton.mp hd
    obtain rfl := List.mem_singleton.mp hl
    exact .inl (.inl rfl)
  errors := ⟨[], by simp [State.start, lexicalErrors], by simp⟩
  room := by
    rw [State.start, Array.size_map]
    exact Nat.le_max_right _ _

/-- A refused source was compiled to a state with errors, all of which have their places. -/
theorem exists_of_refused {es : List CompileError}
    (h : (compile source heap outer).1 = .errors es) :
    ∃ s : State, s.Placed (Token.read source) source.utf8ByteSize ∧ s.errors ≠ #[] ∧
      es = s.reported := by
  have := walk_places (n := source.utf8ByteSize) (name_not_implicit source)
  have hwalk : Places (Token.read source) source.utf8ByteSize script :=
    walks_script (R := fun _ x _ => Places (Token.read source) source.utf8ByteSize x)
  unfold compile at h
  split at h
  · cases h
  · next s hscript =>
    cases h
    refine ⟨s, hwalk.ok _ _ _ (placed_start source heap outer) hscript, fun hempty => ?_, rfl⟩
    cases (script_made hscript).mpr hempty
  · next hscript => exact absurd hscript script_not_problem
  · cases h

/-! ### Places -/

/-- A name in a source, with its span: a token that is the name, and text that spells it. -/
structure CoversName (source name : String) (span : Source.Span) : Prop where
  token : ∃ l ∈ (Token.read source).tokens, l.token = .name name ∧ l.span = span
  text : ∃ before after, source = before ++ name ++ after ∧
    span.start = before.utf8ByteSize ∧ span.stop = (before ++ name).utf8ByteSize

/-- A name has the span that covers it. -/
theorem NamedAt.covers {i : Nat} {name : String} {span : Source.Span}
    (h : NamedAt (Token.read source) i name span) : CoversName source name span := by
  obtain ⟨line, ht⟩ := h
  have hmem := Array.mem_of_getElem? ht
  refine ⟨⟨_, hmem, rfl, rfl⟩, ?_⟩
  obtain ⟨-, piece, ⟨before, after, hsource, hstart, hstop, -⟩, hpiece⟩ :=
    (Token.read_tiles source).token _ hmem
  rw [hpiece name rfl] at hsource hstop
  refine ⟨String.ofList before, String.ofList after, ?_, ?_, ?_⟩
  · apply String.toList_inj.mp
    rw [hsource, String.toList_append, String.toList_append, String.toList_ofList,
      String.toList_ofList]
  · rw [Source.utf8ByteSize_ofList]
    exact hstart
  · rw [String.utf8ByteSize_append, Source.utf8ByteSize_ofList, ← byteLength_toList name,
      ← Source.byteLength_append]
    exact hstop

/-- Of two names that are tokens the earlier one ends where the later one begins, or before. -/
theorem NamedAt.stop_le {i j : Nat} {name name' : String} {span span' : Source.Span} (hij : i < j)
    (h : NamedAt (Token.read source) i name span) (h' : NamedAt (Token.read source) j name' span') :
    span.stop ≤ span'.start := by
  obtain ⟨line, ht⟩ := h
  obtain ⟨line', ht'⟩ := h'
  obtain ⟨hi, hti⟩ := Array.getElem?_eq_some_iff.mp ht
  obtain ⟨hj, htj⟩ := Array.getElem?_eq_some_iff.mp ht'
  have horder := List.pairwise_iff_getElem.mp (Token.read_tiles source).tokens i j hi hj hij
  rw [Array.getElem_toList, Array.getElem_toList, hti, htj] at horder
  exact horder

/-- An error is about a text of the source that stands in its line, or about the end of the input. -/
theorem State.Placed.stands (h : s.Placed (Token.read source) source.utf8ByteSize)
    (he : e ∈ s.errors) : (∃ piece, Source.Stands source.toList e.span e.line piece) ∨
      e.span = ⟨source.utf8ByteSize, source.utf8ByteSize⟩ ∧
        e.line = endLine (Token.read source) := by
  obtain ⟨more, herrors, hmore⟩ := h.errors
  rw [← Array.mem_toList_iff, herrors] at he
  rcases List.mem_append.mp he with he | he
  · obtain ⟨p, hp, rfl⟩ := List.mem_map.mp he
    exact .inl ((Token.read_tiles source).problem p (Array.mem_toList_iff.mp hp)).2
  · rcases (hmore e he).place with ⟨l, hl, hspan, hline⟩ | hend
    · obtain ⟨-, piece, hstands, -⟩ := (Token.read_tiles source).token l hl
      exact .inl ⟨piece, hspan ▸ hline ▸ hstands⟩
    · exact .inr hend

/-- A name that is declared twice is reported with both of its places. -/
theorem State.Placed.duplicate (h : s.Placed (Token.read source) source.utf8ByteSize)
    (he : e ∈ s.errors) {name : String} {previous : Source.Span}
    (hkind : e.kind = .duplicateLocal name previous) :
    CoversName source name e.span ∧ CoversName source name previous ∧ previous.stop ≤ e.span.start := by
  obtain ⟨more, herrors, hmore⟩ := h.errors
  rw [← Array.mem_toList_iff, herrors] at he
  rcases List.mem_append.mp he with he | he
  · obtain ⟨p, -, rfl⟩ := List.mem_map.mp he
    cases hkind
  · obtain ⟨i, j, hij, hi, hj⟩ := (hmore e he).earlier name previous hkind
    exact ⟨hj.covers, hi.covers, hi.stop_le hij hj⟩

/-! ### Reports -/

/-- By where they begin, errors are ordered. -/
theorem start_le_trans (a b c : CompileError)
    (hab : decide (a.span.start ≤ b.span.start) = true)
    (hbc : decide (b.span.start ≤ c.span.start) = true) :
    decide (a.span.start ≤ c.span.start) = true := by
  rw [decide_eq_true_eq] at hab hbc ⊢
  exact Nat.le_trans hab hbc

/-- Any two errors may be sorted by where they start. -/
theorem start_le_total (a b : CompileError) :
    (decide (a.span.start ≤ b.span.start) || decide (b.span.start ≤ a.span.start)) = true := by
  simp only [Bool.or_eq_true, decide_eq_true_eq]
  exact Nat.le_total _ _

/-- What is reported is an error. -/
theorem State.mem_of_mem_reported (he : e ∈ s.reported) : e ∈ s.errors :=
  Array.mem_toList_iff.mp (List.mem_mergeSort.mp (List.mem_of_mem_take he))

/-- What is reported is sorted. -/
theorem State.pairwise_reported (s : State) :
    s.reported.Pairwise fun a b => a.span.start ≤ b.span.start := by
  have hsorted := List.pairwise_mergeSort start_le_trans start_le_total s.errors.toList
  exact (hsorted.imp fun h => of_decide_eq_true h).sublist (List.take_sublist _ _)

/-- At least one error is reported, and no more than are allowed. -/
theorem State.length_reported (hs : s.errors ≠ #[]) :
    1 ≤ s.reported.length ∧ s.reported.length ≤ maxErrors := by
  have hsize : 0 < s.errors.size := Array.size_pos_iff.mpr hs
  rw [State.reported, List.length_take, List.length_mergeSort, Array.length_toList]
  exact ⟨Nat.le_min.mpr ⟨by decide, hsize⟩, Nat.min_le_left _ _⟩

/-- The problems of reading are found in the order of the source. -/
theorem pairwise_lexicalErrors (source : String) : (lexicalErrors (Token.read source)).Pairwise
    fun a b => decide (a.span.start ≤ b.span.start) = true :=
  List.pairwise_map.mpr ((Token.read_tiles source).problems.imp fun h => decide_eq_true h)

/-- The first problems of reading are reported, in their order. -/
theorem State.Placed.reports_lexical (h : s.Placed (Token.read source) source.utf8ByteSize) :
    ((lexicalErrors (Token.read source)).take maxErrors).Sublist s.reported := by
  obtain ⟨more, herrors, -⟩ := h.errors
  have hlength : s.errors.size = (Token.read source).problems.size + more.length := by
    rw [← Array.length_toList, herrors, List.length_append, lexicalErrors, List.length_map,
      Array.length_toList]
  have hroom := h.room
  rw [State.reported, herrors]
  rcases Nat.lt_or_ge (Token.read source).problems.size maxErrors with hfew | hmany
  · have hall : s.errors.size ≤ maxErrors := by omega
    rw [List.take_of_length_le (l := List.mergeSort _ _)]
    · refine (List.take_sublist _ _).trans ?_
      exact List.sublist_mergeSort start_le_trans start_le_total (pairwise_lexicalErrors source)
        (List.sublist_append_left _ _)
    · rw [List.length_mergeSort, ← herrors, Array.length_toList]
      exact hall
  · have hnone : more = [] := List.length_eq_zero_iff.mp (by omega)
    rw [hnone, List.append_nil, List.mergeSort_of_pairwise (pairwise_lexicalErrors source)]

/-- The bytes of a source end where a character does. -/
theorem isValid_utf8ByteSize (source : String) :
    (String.Pos.Raw.mk source.utf8ByteSize).IsValid source :=
  String.Pos.Raw.isValid_iff_exists_append.mpr ⟨source, "", by simp, rfl⟩

/-- An error has a span of whole characters in the source. -/
theorem State.Placed.whole (h : s.Placed (Token.read source) source.utf8ByteSize)
    (he : e ∈ s.errors) : e.span.start ≤ e.span.stop ∧ e.span.stop ≤ source.utf8ByteSize ∧
      (String.Pos.Raw.mk e.span.start).IsValid source ∧
      (String.Pos.Raw.mk e.span.stop).IsValid source := by
  rcases h.stands he with ⟨piece, hstands⟩ | ⟨hend, -⟩
  · obtain ⟨hle, hstart, hstop⟩ := hstands.whole
    exact ⟨hle, hstop.le_rawEndPos, hstart, hstop⟩
  · rw [hend]
    exact ⟨Nat.le_refl _, Nat.le_refl _, isValid_utf8ByteSize source, isValid_utf8ByteSize source⟩

/-- On a sound heap, unless the arena is exhausted, a source is refused exactly if reading it found
problems or a declaration of it fails. It is refused with one to twenty errors in the order of the
source, among them the first problems of reading. Every error is about whole characters of the
source, and one about a name that is declared twice covers the name, as does the earlier place that
it gives. -/
theorem compile_reports_in_order (source : String) (heap : Heap) (outer : List Handle)
    (hs : heap.Sound) (hc : heap.Covers outer) :
    (compile source heap outer).1 = .fault .arenaFull ∨
    ((∃ es, (compile source heap outer).1 = .errors es) ↔
      (Token.read source).problems ≠ #[] ∨ DeclarationFails source heap outer) ∧
    ∀ es, (compile source heap outer).1 = .errors es →
      1 ≤ es.length ∧ es.length ≤ 20 ∧
      (es.Pairwise fun a b => a.span.start ≤ b.span.start) ∧
      ((lexicalErrors (Token.read source)).take 20).Sublist es ∧
      ∀ e ∈ es,
        (e.span.start ≤ e.span.stop ∧ e.span.stop ≤ source.utf8ByteSize ∧
          (String.Pos.Raw.mk e.span.start).IsValid source ∧
          (String.Pos.Raw.mk e.span.stop).IsValid source) ∧
        ∀ name previous, e.kind = .duplicateLocal name previous →
          CoversName source name e.span ∧ CoversName source name previous ∧
            previous.stop ≤ e.span.start := by
  by_cases hfull : (compile source heap outer).1 = .fault .arenaFull
  · exact .inl hfull
  · refine .inr ⟨refused_iff fun f hf => hfull ?_, fun es hes => ?_⟩
    · have hspec := compile_spec source hs hc
      generalize compile source heap outer = made at hf hspec
      obtain ⟨result, h⟩ := made
      obtain rfl : result = .fault f := hf
      exact congrArg Result.fault hspec
    · obtain ⟨s, hplaced, hne, rfl⟩ := exists_of_refused hes
      obtain ⟨hmin, hmax⟩ := s.length_reported hne
      refine ⟨hmin, hmax, s.pairwise_reported, hplaced.reports_lexical, fun e he => ?_⟩
      have he' := State.mem_of_mem_reported he
      exact ⟨hplaced.whole he', fun name previous => hplaced.duplicate he'⟩

/-- A name that is declared twice in a block is reported with both places, the second last. -/
theorem duplicate_reported_in_order : ∃ es e,
    (compile "{ let a; let a; }" (Heap.empty Pacing.standard Journal.off) []).1 = .errors es ∧
      e ∈ es ∧ e.kind = .duplicateLocal "a" ⟨6, 7⟩ ∧
      CoversName "{ let a; let a; }" "a" e.span ∧ CoversName "{ let a; let a; }" "a" ⟨6, 7⟩ ∧
      7 ≤ e.span.start := by
  have hrefused : (compile "{ let a; let a; }" (Heap.empty Pacing.standard Journal.off)
      []).1.errors?.any (fun es => es.any fun e => decide (e.kind = .duplicateLocal "a" ⟨6, 7⟩)) =
        true := by decide +kernel
  obtain ⟨es, hes, hany⟩ := (Option.any_eq_true _ _).mp hrefused
  obtain ⟨e, he, hkind⟩ := List.any_eq_true.mp hany
  have hkind := of_decide_eq_true hkind
  have hes := Result.errors?_eq_some hes
  have hsound := Heap.sound_empty Pacing.standard Journal.off
  rcases compile_reports_in_order "{ let a; let a; }" _ [] hsound
    (fun x hx => absurd hx Heap.not_reachable_nil) with hfull | ⟨-, hreports⟩
  · rw [hes] at hfull
    cases hfull
  · obtain ⟨-, -, -, -, hplaces⟩ := hreports es hes
    exact ⟨es, e, hes, he, hkind, (hplaces e he).2 "a" ⟨6, 7⟩ hkind⟩

/-! ### Lines -/

/-- The line that is reported for an error is that of the first byte of its span, unless the error is
at the end of the input: that one has the line of the last token. -/
theorem compile_reports_lines {es : List CompileError}
    (hes : (compile source heap outer).1 = .errors es) (he : e ∈ es) :
    e.line = (Source.Lines.ofText source).lineOf e.span.start ∨
      e.span = ⟨source.utf8ByteSize, source.utf8ByteSize⟩ ∧
        e.line = endLine (Token.read source) := by
  obtain ⟨s, hplaced, -, rfl⟩ := exists_of_refused hes
  rcases hplaced.stands (State.mem_of_mem_reported he) with ⟨piece, hstands⟩ | hend
  · exact .inl hstands.line_eq
  · exact .inr hend

/-- What is missing behind the last line is missed on the line of the last token, and its span is on
the line after it. -/
example : (compile "print 1\n" (Heap.empty Pacing.standard Journal.off) []).1.errors?.map
    (fun es => es.map fun e => (e.line, (Source.Lines.ofText "print 1\n").lineOf e.span.start)) =
      some [(1, 2)] := by decide +kernel

end ScriptMachine.Compile
