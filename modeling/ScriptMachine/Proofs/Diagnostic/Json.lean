import ScriptMachine.Diagnostic.Json
import ScriptMachine.Proofs.Source.Positions
import ScriptMachine.Proofs.Text.Json

/-!
# What a JSON diagnostic reports

A diagnostic is one line of text, and whoever reads the line as JSON gets an object whose fields are
those of the diagnostic. An optional field is there exactly if the diagnostic has it, and a label has
a line and a column exactly if there is a source. The lines of the source must all have numbers.
-/

namespace ScriptMachine

open Text Text.Json

/-- A number that counts something. -/
def Text.Json.Tree.nat (n : Nat) : Tree := .number n 0

/-- The fields of an object say what a label says, and where it starts in the source if there is
one. -/
structure Label.Reported (source : Option Source.Lines) (l : Label) (fields : List (String × Tree)) :
    Prop where
  names : (fields.map Prod.fst).Nodup
  start : fields.lookup "start" = some (.nat l.span.start)
  stop : fields.lookup "end" = some (.nat l.span.stop)
  message : fields.lookup "message" = some (.string l.message)
  primary : fields.lookup "primary" = some (.bool l.primary)
  position : ∀ lines ∈ source, ∃ line column, lines.lookup l.span.start = some (line, column) ∧
    fields.lookup "line" = some (.nat line) ∧ fields.lookup "col" = some (.nat column)
  nowhere : source = none → fields.lookup "line" = none ∧ fields.lookup "col" = none

/-- The fields of an object say what a diagnostic says, with its labels in their order. -/
structure Diagnostic.Reported (d : Diagnostic) (fields : List (String × Tree)) : Prop where
  names : (fields.map Prod.fst).Nodup
  message : fields.lookup "message" = some (.string d.message)
  code : fields.lookup "code" = d.code.map .string
  line : fields.lookup "line" = d.line.map fun line => .nat line.toNat
  suggestion : fields.lookup "suggestion" = d.suggestion.map .string
  notes : fields.lookup "notes" = some (.array (d.notes.map .string))
  labels : ∃ ts, fields.lookup "labels" = some (.array ts) ∧ List.Forall₂ (fun t l =>
    ∃ fields, t = .object fields ∧ l.Reported (d.source.map Source.Lines.ofText) fields) ts d.labels

namespace Diagnostic

/-- A written field spells a field. -/
def FieldSpells (f : String × String) (g : String × Tree) : Prop := f.1 = g.1 ∧ Spells f.2.toList g.2

/-- The field of an optional value that is spelled. -/
theorem optionalField_spells (name : String) {α : Type} {write : α → String} {tree : α → Tree}
    (h : ∀ a, Spells (write a).toList (tree a)) (value : Option α) :
    List.Forall₂ FieldSpells (optionalField name (value.map write))
      ((value.map tree).toList.map fun t => (name, t)) := by
  cases value with
  | none => exact .nil
  | some a => exact .cons ⟨rfl, h a⟩ .nil

/-- The fields of the object for a label that starts somewhere, if there is a source. -/
def labelFields (position : Option (ℕ × ℕ)) (l : Label) : List (String × Tree) :=
  (position.map fun p => Tree.nat p.2).toList.map (fun t => ("col", t)) ++ [("end", .nat l.span.stop)] ++
    (position.map fun p => Tree.nat p.1).toList.map (fun t => ("line", t)) ++
    [("message", .string l.message), ("primary", .bool l.primary), ("start", .nat l.span.start)]

/-- A label has an object that says where it starts. -/
theorem exists_labelJson {source : Option Source.Lines} {l : Label}
    (h : ∀ lines ∈ source, ∃ line column, lines.lookup l.span.start = some (line, column)) :
    ∃ text fields, labelJson source l = some text ∧ Spells text.toList (.object fields) ∧
      l.Reported source fields := by
  have hspells (position : Option (ℕ × ℕ)) : Spells (Json.object <|
      optionalField "col" (position.map (toString ·.2)) ++ [("end", toString l.span.stop)] ++
      optionalField "line" (position.map (toString ·.1)) ++ [("message", Json.string l.message),
        ("primary", Json.bool l.primary), ("start", toString l.span.start)]).toList
      (.object (labelFields position l)) := by
    have hcolumn := optionalField_spells "col" (fun p : ℕ × ℕ => spells_nat p.2) position
    have hline := optionalField_spells "line" (fun p : ℕ × ℕ => spells_nat p.1) position
    have hstop : FieldSpells ("end", toString l.span.stop) ("end", .nat l.span.stop) :=
      ⟨rfl, spells_nat _⟩
    have hmessage : FieldSpells ("message", string l.message) ("message", .string l.message) :=
      ⟨rfl, spells_string _⟩
    have hprimary : FieldSpells ("primary", bool l.primary) ("primary", .bool l.primary) :=
      ⟨rfl, spells_bool _⟩
    have hstart : FieldSpells ("start", toString l.span.start) ("start", .nat l.span.start) :=
      ⟨rfl, spells_nat _⟩
    exact spells_object (List.rel_append (List.rel_append (List.rel_append hcolumn (.cons hstop .nil))
      hline) (.cons hmessage (.cons hprimary (.cons hstart .nil))))
  cases source with
  | none =>
    have hnames : ["end", "message", "primary", "start"].Nodup := by decide
    exact ⟨_, _, rfl, hspells none, hnames, rfl, rfl, rfl, rfl, (fun _ h => by cases h),
      fun _ => ⟨rfl, rfl⟩⟩
  | some lines =>
    have hnames : ["col", "end", "line", "message", "primary", "start"].Nodup := by decide
    obtain ⟨line, column, hlookup⟩ := h lines rfl
    refine ⟨_, _, ?_, hspells (some (line, column)), hnames, rfl, rfl, rfl, rfl, ?_,
      (fun h => by cases h)⟩
    · rw [labelJson, Option.mapM_some, hlookup]
      rfl
    · rintro _ ⟨rfl⟩
      exact ⟨line, column, hlookup, rfl, rfl⟩

/-- Labels have objects in their order. -/
theorem exists_labelsJson {source : Option Source.Lines} {labels : List Label}
    (h : ∀ l ∈ labels, ∀ lines ∈ source, ∃ line column,
      lines.lookup l.span.start = some (line, column)) :
    ∃ texts trees, labels.mapM (labelJson source) = some texts ∧
      List.Forall₂ (fun s t => Spells s.toList t) texts trees ∧
      List.Forall₂ (fun t l => ∃ fields, t = .object fields ∧ l.Reported source fields) trees labels := by
  induction labels with
  | nil => exact ⟨[], [], rfl, .nil, .nil⟩
  | cons l labels ih =>
    obtain ⟨text, fields, htext, hspells, hreported⟩ := exists_labelJson (h l List.mem_cons_self)
    obtain ⟨texts, trees, htexts, hall, hlabels⟩ := ih fun l hl => h l (List.mem_cons_of_mem _ hl)
    refine ⟨text :: texts, .object fields :: trees, ?_, .cons hspells hall,
      .cons ⟨fields, rfl, hreported⟩ hlabels⟩
    rw [List.mapM_cons, htext, htexts]
    rfl

/-- The fields of the object for a diagnostic with the objects for its labels. -/
def fields (d : Diagnostic) (labels : List Tree) : List (String × Tree) :=
  (d.code.map Tree.string).toList.map (fun t => ("code", t)) ++ [("labels", .array labels)] ++
    (d.line.map fun line => Tree.nat line.toNat).toList.map (fun t => ("line", t)) ++
    [("message", .string d.message), ("notes", .array (d.notes.map .string)),
      ("severity", .string "error")] ++
    (d.suggestion.map Tree.string).toList.map (fun t => ("suggestion", t))

/-- An array of what is spelled. -/
theorem array_spells {α : Type} {write : α → String} {tree : α → Tree}
    (h : ∀ a, Spells (write a).toList (tree a)) (xs : List α) :
    Spells (Json.array (xs.map write)).toList (.array (xs.map tree)) :=
  spells_array (by
    rw [List.forall₂_map_left_iff, List.forall₂_map_right_iff, List.forall₂_same]
    exact fun a _ => h a)

/-- The object for a diagnostic, once those for its labels are written. -/
theorem toJson_spells {d : Diagnostic} {texts : List String} {trees : List Tree}
    (htexts : d.labels.mapM (labelJson (d.source.map Source.Lines.ofText)) = some texts)
    (htrees : List.Forall₂ (fun s t => Spells s.toList t) texts trees) :
    ∃ text, d.toJson = some text ∧ Spells text.toList (.object (d.fields trees)) := by
  have hcode := optionalField_spells "code" spells_string d.code
  have hlabels : FieldSpells ("labels", Json.array texts) ("labels", .array trees) :=
    ⟨rfl, spells_array htrees⟩
  have hline := optionalField_spells "line" (fun line : UInt32 => spells_nat line.toNat) d.line
  have hmessage : FieldSpells ("message", string d.message) ("message", .string d.message) :=
    ⟨rfl, spells_string _⟩
  have hnotes : FieldSpells ("notes", Json.array (d.notes.map string)) ("notes", .array _) :=
    ⟨rfl, array_spells spells_string d.notes⟩
  have hseverity : FieldSpells ("severity", string "error") ("severity", .string "error") :=
    ⟨rfl, spells_string _⟩
  have hsuggestion := optionalField_spells "suggestion" spells_string d.suggestion
  refine ⟨_, ?_, spells_object (List.rel_append (List.rel_append (List.rel_append (List.rel_append
    hcode (.cons hlabels .nil)) hline) (.cons hmessage (.cons hnotes (.cons hseverity .nil))))
      hsuggestion)⟩
  rw [toJson, htexts]
  rfl

/-- The fields say what the diagnostic says. -/
theorem fields_reported {d : Diagnostic} {trees : List Tree}
    (hlabels : List.Forall₂ (fun t l => ∃ fields, t = .object fields ∧
      Label.Reported (d.source.map Source.Lines.ofText) l fields) trees d.labels) :
    d.Reported (d.fields trees) := by
  obtain ⟨message, code, line, labels, notes, suggestion, source⟩ := d
  cases code <;> cases line <;> cases suggestion <;>
    exact ⟨by simp [fields], rfl, rfl, rfl, rfl, rfl, _, rfl, hlabels⟩

/-- A diagnostic is written as one line, and the line is parsed as an object that says what the
diagnostic says, if the lines of its source all have numbers. -/
theorem toJson_reported (d : Diagnostic)
    (h : ∀ source ∈ d.source, (Source.Lines.ofText source).count < 2 ^ 32) :
    ∃ text, d.toJson = some text ∧ (∀ c ∈ text.toList, 0x20 ≤ c.toNat) ∧
      ∃ fields, Json.parse text = some (.object fields) ∧ d.Reported fields := by
  obtain ⟨texts, trees, htexts, htrees, hlabels⟩ : ∃ texts trees,
      d.labels.mapM (labelJson (d.source.map Source.Lines.ofText)) = some texts ∧
        List.Forall₂ (fun s t => Spells s.toList t) texts trees ∧
        List.Forall₂ (fun t l => ∃ fields, t = .object fields ∧
          Label.Reported (d.source.map Source.Lines.ofText) l fields) trees d.labels := by
    refine exists_labelsJson fun l _ lines hlines => ?_
    obtain ⟨source, hsource, rfl⟩ := Option.map_eq_some_iff.mp hlines
    exact Source.Lines.exists_lookup (h source hsource) _
  obtain ⟨text, htext, hspells⟩ := toJson_spells htexts htrees
  exact ⟨text, htext, hspells.plain, _, hspells.parse, fields_reported hlabels⟩

/-- A wrong character in the second line of a source. -/
def secondLine : Diagnostic where
  message := "unexpected \"@\""
  code := some "NYR-L003"
  line := some 2
  labels := [⟨⟨13, 14⟩, "here", true⟩]
  notes := ["é\t"]
  suggestion := none
  source := some "let a = 1;\nb @"

/-- The label of a diagnostic in the second line of a source is reported there. -/
theorem second_line_reported : ∃ text fields trees label,
    secondLine.toJson = some text ∧ Json.parse text = some (.object fields) ∧
      fields.lookup "labels" = some (.array [trees]) ∧ trees = .object label ∧
      label.lookup "line" = some (.nat 2) ∧ label.lookup "col" = some (.nat 3) := by
  have hcount : ∀ source ∈ secondLine.source, (Source.Lines.ofText source).count < 2 ^ 32 := by
    rintro _ ⟨rfl⟩
    decide +kernel
  obtain ⟨text, htext, -, fields, hparse, hreported⟩ := toJson_reported secondLine hcount
  obtain ⟨trees, htrees, hlabels⟩ := hreported.labels
  have hlookup : (Source.Lines.ofText "let a = 1;\nb @").lookup 13 = some (2, 3) := by decide +kernel
  obtain ⟨tree, rest, ⟨label, rfl, hlabel⟩, hrest, rfl⟩ := List.forall₂_cons_right_iff.mp hlabels
  obtain rfl := List.forall₂_nil_right_iff.mp hrest
  obtain ⟨line, column, hposition, hline, hcolumn⟩ := hlabel.position _ rfl
  obtain ⟨rfl, rfl⟩ := Prod.mk.inj (Option.some.inj (hposition.symm.trans hlookup))
  exact ⟨text, fields, _, label, htext, hparse, htrees, rfl, hline, hcolumn⟩

end Diagnostic

end ScriptMachine
