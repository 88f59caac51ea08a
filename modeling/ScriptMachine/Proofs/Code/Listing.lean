import ScriptMachine.Bytecode.Listing
import ScriptMachine.Proofs.Code.WellFormed
import ScriptMachine.Proofs.Heap.Reading

/-!
# Listing known code

Each instruction of a function whose constants are known has a line, and the listing goes on behind
the instruction's words. So the listing of a well-formed function stays at starts of instructions,
and has a line for each.
-/

namespace ScriptMachine

variable {W : World} {h : Heap} {f : Prototype} {o : Nat} {i : Instr} {w : UInt32}

/-- A known constant has a printed form; one that is missing has a question mark. -/
theorem Chunk.exists_constantText {c : Chunk} (hw : W.Fits h)
    (hconstants : ∀ v ∈ c.constants, W.Holds v .any) (k : UInt16) :
    ∃ shown, c.constantText h k = .ok shown := by
  unfold constantText
  split
  · next v hv => exact hw.display (hconstants v (Array.mem_of_getElem? hv))
  · exact ⟨_, rfl⟩

/-- The captures of a closure instruction can be counted if its constant is a function. -/
theorem Prototype.captureCount_eq {k : UInt16} (hk : f.Meets h k .function) :
    f.chunk.captureCount h k = .ok (f.captureCount h k) := by
  obtain ⟨v, r, p, hv, hr, hp⟩ := hk
  have hcount : f.chunk.captureCount h k = .ok p.upvalueCount := by
    rw [Chunk.captureCount, hv]
    simp only [Option.bind_some, hr, Heap.prototype, Heap.object, hp]
    rfl
  rw [Prototype.captureCount, hcount]
  rfl

/-- What is listed of an instruction, and where the next one starts. -/
theorem Prototype.exists_operation (hw : W.Fits h)
    (hconstants : ∀ v ∈ f.chunk.constants, W.Holds v .any) (o : Nat) (w : UInt32)
    (hclosure : ∀ k, Instr.decode? w = some (.closure k) → f.Meets h k .function) :
    ∃ text, f.chunk.operation h o w =
      .ok (text, o + ((Instr.decode? w).map (Instr.width (f.captureCount h))).getD 1) := by
  have htext := Chunk.exists_constantText hw hconstants
  have hconstant (i : Instr) (k : UInt16) : ∃ text,
      (f.chunk.constantLine h i k >>= fun text => pure (text, o + 1)) = .ok (text, o + 1) := by
    obtain ⟨shown, hshown⟩ := htext k
    rw [Chunk.constantLine, hshown]
    exact ⟨_, rfl⟩
  have hinvoke (i : Instr) (k : UInt16) (n : UInt8) : ∃ text,
      (f.chunk.invokeLine h i k n >>= fun text => pure (text, o + 1)) = .ok (text, o + 1) := by
    obtain ⟨shown, hshown⟩ := htext k
    rw [Chunk.invokeLine, hshown]
    exact ⟨_, rfl⟩
  unfold Chunk.operation
  cases hi : Instr.decode? w with
  | none => exact ⟨_, rfl⟩
  | some i =>
    cases i with
    | constant k | getGlobal k | defineGlobal k | setGlobal k | getProperty k | setProperty k
    | getSuper k | class_ k | method k => exact hconstant _ k
    | invoke k n | superInvoke k n => exact hinvoke _ k n
    | closure k =>
      obtain ⟨shown, hshown⟩ := htext k
      have hcount := captureCount_eq (hclosure k hi)
      simp only [hshown, hcount]
      refine ⟨_, congrArg Except.ok (Prod.ext rfl ?_)⟩
      show o + 1 + f.captureCount h k = o + (1 + f.captureCount h k)
      omega
    | _ => exact ⟨_, rfl⟩

/-- An instruction has a line, and the next one starts behind its words. -/
theorem Prototype.exists_listInstr (hw : W.Fits h)
    (hconstants : ∀ v ∈ f.chunk.constants, W.Holds v .any) (hin : o < f.chunk.code.size)
    (hclosure : ∀ k, f.instr? o = some (.closure k) → f.Meets h k .function) :
    ∃ line, f.chunk.listInstr h o = .ok (line, o + f.width h o) := by
  have hword : f.chunk.code[o]? = some f.chunk.code[o] := Array.getElem?_eq_getElem hin
  rw [Prototype.instr?, hword, Option.bind_some] at hclosure
  obtain ⟨text, htext⟩ := exists_operation hw hconstants o _ hclosure
  rw [Chunk.listInstr, hword, Prototype.width, Prototype.instr?, hword, Option.bind_some]
  simp only [htext]
  exact ⟨_, rfl⟩

/-- A well-formed function has a listing. -/
theorem Prototype.WellFormed.exists_listing (hf : f.WellFormed h) (hw : W.Fits h)
    (hconstants : ∀ v ∈ f.chunk.constants, W.Holds v .any) (title : String) :
    ∃ text, f.chunk.listing h title = .ok text := by
  have hfrom (fuel : Nat) (o : Nat) (text : String) (ho : f.Starts h o) :
      ∃ text', f.chunk.listFrom h fuel o text = .ok text' := by
    induction fuel generalizing o text with
    | zero => exact ⟨text, rfl⟩
    | succ fuel ih =>
      rw [Chunk.listFrom]
      split
      · next hin =>
        obtain ⟨line, hline⟩ := exists_listInstr hw hconstants hin fun k hk =>
          hf.constants o _ k .function ⟨ho, hk⟩ rfl
        rw [hline]
        exact ih _ _ (ho.next hin)
      · exact ⟨text, rfl⟩
  exact hfrom _ _ _ .zero

end ScriptMachine
