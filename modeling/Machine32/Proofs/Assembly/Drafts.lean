import Machine32.Assembly.Draft
import Machine32.Proofs.Assembly.Capacity
import Machine32.Proofs.Assembly.Placement
import Machine32.Proofs.Assembly.Rendering

/-!
# Drafts

A draft that is changed in place goes along with the assembler:

* `Draft.Represents`: it has the same names, and the bytes of the same code and data;
* `Draft.Matches`: what the assembler accepts makes a draft of what the assembler
  becomes, and what it refuses breaks off with the same fault before anything is
  changed (`matches_feedLine`, out of one lemma for each kind of work);
* `refused_lines_leave_no_trace`: so lines that are refused might as well not be
  there;
* `feedLine_text`: the text of an instruction is never refused in a code section
  with room for the instruction, and adds its bytes to the code and nothing else.
-/

namespace Machine32

namespace Draft

variable {d : Draft} {a : Assembler} {line : Nat}

/-- The draft has what the assembler has, code and data as bytes. -/
structure Represents (d : Draft) (a : Assembler) : Prop where
  layout_eq : d.layout = a.layout
  kind_eq : d.part.kind = a.current
  symbols_eq : d.symbols = a.symbols
  code_eq : d.code = a.codeBuffer
  data_eq : d.data = a.dataBuffer

theorem represents_initial (l : Layout) : (initial l).Represents (.initial l) :=
  ⟨rfl, rfl, rfl, rfl, rfl⟩

theorem Represents.programPointer_eq (h : d.Represents a) :
    d.programPointer = a.programPointer := by
  rw [programPointer, h.code_eq, Assembler.size_codeBuffer]
  rfl

theorem Represents.dataPointer_eq (h : d.Represents a) : d.dataPointer = a.dataPointer := by
  rw [dataPointer, h.data_eq, Assembler.size_dataBuffer, h.layout_eq]
  rfl

/-- The size of the code does not wrap around. -/
theorem Represents.toNat_size_code (h : d.Represents a) (ha : a.Bounded) :
    (UInt32.ofNat d.code.size).toNat = a.codeSize := by
  rw [h.code_eq, Assembler.size_codeBuffer]
  exact ha.toNat_programPointer

/-- The size of the data does not wrap around, even with one more word. -/
theorem Represents.dataFull_iff (h : d.Represents a) (ha : a.Bounded) :
    d.layout.dataSize < UInt32.ofNat d.data.size + UInt32.ofNat Word.size ↔
      d.layout.dataSize.toNat < a.dataSize + Word.size := by
  have hlt := a.layout.total_lt
  have hmin := a.layout.nonempty.1
  have hle := ha.dataSize_le
  rw [entryLength] at hmin
  rw [h.layout_eq, h.data_eq, Assembler.size_dataBuffer, UInt32.lt_iff_toNat_lt, UInt32.toNat_add,
    UInt32.toNat_ofNat', UInt32.toNat_ofNat', Word.size]
  omega

theorem Represents.finish_eq (h : d.Represents a) : d.finish = a.finish := by
  rw [finish, Assembler.finish, h.symbols_eq]
  cases a.symbols.labels.get? Assembler.startLabel with
  | none => rfl
  | some entry =>
    rw [h.code_eq, h.data_eq, a.toList_dataBuffer]
    exact congrArg (fun code => Except.ok { a.program entry with code }) (a.code_program entry).symm

/-- What work on the draft `d` comes to if the assembler accepts it and becomes
    another one, or refuses it for a fault. -/
inductive Matches (line : Nat) (d : Draft) :
    EStateM.Result AssemblyError Draft Unit → Except Fault Assembler → Prop
  | accepted {d' : Draft} {a : Assembler} : d'.Represents a → Matches line d (.ok () d') (.ok a)
  | refused {f : Fault} : Matches line d (.error (.atLine line f) d) (.error f)

/-! ## The ways to break off -/

/-- What is demanded breaks off where it does for the assembler. -/
theorem Matches.demand {α : Type} {x : Except Fault α} {f : α → Editing Unit}
    {g : α → Except Fault Assembler} (h : ∀ v, Matches line d (f v d) (g v)) :
    Matches line d ((demand line x >>= f) d) (x >>= g) := by
  cases x with
  | error fault => exact .refused
  | ok v => exact h v

/-- A look at the draft breaks off where one at the assembler does. -/
theorem Matches.check {p q : Prop} [Decidable p] [Decidable q] (hpq : p ↔ q) {fault : Fault}
    {x : Editing Unit} {y : Except Fault Assembler} (h : Matches line d (x d) y) :
    Matches line d ((if p then throw (.atLine line fault) else x : Editing Unit) d)
      (if q then .error fault else y) := by
  by_cases hp : p
  · rw [if_pos hp, if_pos (hpq.1 hp)]
    exact .refused
  · rw [if_neg hp, if_neg fun hq => hp (hpq.2 hq)]
    exact h

/-- A label is the first thing that changes, and the last one that can be refused. -/
theorem Matches.defineLabel {name : String} {x : Address} {f : Unit → Editing Unit}
    {g : SymbolTable → Except Fault Assembler}
    (h : ∀ t, Matches line d (f () { d with symbols := t }) (g t)) :
    Matches line d ((defineLabel line name x >>= f) d) (d.symbols.defineLabel name x >>= g) := by
  rw [Draft.defineLabel, SymbolTable.defineLabel, bind_assoc, bind_assoc, bind_assoc]
  refine .demand fun _ => ?_
  change Matches line d (((if d.symbols.labels.contains name then _ else _) >>= f) d) _
  split
  · exact .refused
  · exact h _

theorem Matches.defineConstant {name : String} {c : Constant} {f : Unit → Editing Unit}
    {g : SymbolTable → Except Fault Assembler}
    (h : ∀ t, Matches line d (f () { d with symbols := t }) (g t)) :
    Matches line d ((defineConstant line name c >>= f) d)
      (d.symbols.defineConstant name c >>= g) := by
  rw [Draft.defineConstant, SymbolTable.defineConstant, bind_assoc, bind_assoc, bind_assoc]
  refine .demand fun _ => ?_
  change Matches line d (((if d.symbols.constants.contains name then _ else _) >>= f) d) _
  split
  · exact .refused
  · exact h _

/-! ## One line -/

theorem matches_openCode (h : d.Represents a) (label : String) {part : Part}
    (hpart : part.kind = .code) :
    Matches line d (openCode line label part d) (a.openCode label) := by
  rw [Assembler.openCode, ← h.symbols_eq, ← h.programPointer_eq]
  refine Matches.defineLabel (f := fun _ => enter part) fun t => ?_
  exact .accepted ⟨h.layout_eq, hpart, rfl, h.code_eq, h.data_eq⟩

theorem matches_openSection (h : d.Represents a) (name : String) :
    Matches line d (openSection line name d) (a.openSection name) := by
  rw [openSection, Assembler.openSection]
  split
  · exact .accepted ⟨h.layout_eq, rfl, h.symbols_eq, h.code_eq, h.data_eq⟩
  split
  · exact matches_openCode h _ rfl
  · exact matches_openCode h _ rfl

theorem matches_defineData (line : Nat) (h : d.Represents a) (ha : a.Bounded) (name : String)
    (value : Int) :
    Matches line d (defineData line name value d) (a.defineData name value) := by
  rw [defineData, Assembler.defineData, ← h.layout_eq, ← h.symbols_eq, ← h.dataPointer_eq]
  refine .demand fun w => .check (h.dataFull_iff ha) ?_
  refine Matches.defineConstant fun t => .accepted ⟨rfl, h.kind_eq, rfl, h.code_eq, ?_⟩
  have hpush : { a with data := a.data.push w }.dataBuffer =
      a.dataBuffer ++ (Word.toBytes w).toArray := Array.foldl_push
  exact (congrArg (· ++ (Word.toBytes w).toArray) h.data_eq).trans hpush.symm

theorem matches_emit (h : d.Represents a) (ha : a.Bounded) (i : Instruction) :
    Matches line d (emit line i d) (a.emit i) := by
  rw [Assembler.emit, ← h.toNat_size_code ha, ← h.layout_eq]
  refine .check Iff.rfl (.accepted ⟨rfl, h.kind_eq, h.symbols_eq, ?_, h.data_eq⟩)
  have hpush : { a with code := a.code.push i }.codeBuffer =
      Instruction.encodeInto a.codeBuffer i := Array.foldl_push
  exact (congrArg (Instruction.encodeInto · i) h.code_eq).trans hpush.symm

/-- What the section does not allow is refused before anything else is looked at. -/
theorem matches_feedParsed (h : d.Represents a) (ha : a.Bounded) (parsed : Line) :
    Matches line d (feedParsed line parsed d) (a.feedParsed parsed) := by
  cases parsed with
  | directive name => exact matches_openSection h name
  | assignment name value =>
    have hdata := matches_defineData line h ha name value
    rw [Assembler.feedParsed, ← h.kind_eq]
    clear h
    obtain ⟨l, part, t, code, data⟩ := d
    cases part with
    | data => exact hdata
    | outside | start | function => exact .refused
  | statement mnemonic operands =>
    have hcode : Matches line d
        ((do
          let values ← demand line (operands.mapM d.symbols.resolve)
          emit line (← demand line (Instruction.ofStatement mnemonic values))) d)
        (do
          let values ← operands.mapM a.symbols.resolve
          a.emit (← Instruction.ofStatement mnemonic values)) := by
      rw [h.symbols_eq]
      exact .demand fun _ => .demand fun i => matches_emit h ha i
    rw [Assembler.feedParsed, ← h.kind_eq]
    clear h
    obtain ⟨l, part, t, code, data⟩ := d
    cases part with
    | start | function => exact hcode
    | outside | data => exact .refused

/-- The draft does with a line what the assembler does with it. -/
theorem matches_feedLine (line : Nat) (h : d.Represents a) (ha : a.Bounded) (text : String) :
    Matches line d (feedLine line text d) (a.feed text) := by
  refine .demand fun parsed => ?_
  cases parsed with
  | none => exact .accepted h
  | some parsed => exact matches_feedParsed h ha parsed

/-! ## Many lines -/

/-- The draft that work on it leaves, whether it was broken off or not. -/
def left : EStateM.Result AssemblyError Draft Unit → Draft
  | .ok () d => d
  | .error _ d => d

/-- The draft after lines with their numbers, of which it may refuse some. -/
def feedAll (d : Draft) (calls : List (Nat × String)) : Draft :=
  calls.foldl (fun d call => left (feedLine call.1 call.2 d)) d

/-- Of lines with their numbers, those that are accepted when all of them are
    fed. -/
def accepted (d : Draft) : List (Nat × String) → List (Nat × String)
  | [] => []
  | call :: calls =>
    match feedLine call.1 call.2 d with
    | .ok () d => call :: accepted d calls
    | .error _ d => accepted d calls

/-- Takes in lines with their numbers, up to the first one that is refused. -/
def feedEach : List (Nat × String) → Editing Unit
  | [] => pure ()
  | call :: calls => do
    feedLine call.1 call.2
    feedEach calls

theorem bind_of_ok {x y : Editing Unit} {d' : Draft} (h : x d = .ok () d') :
    (do x; y : Editing Unit) d = y d' := by
  simp only [bind, EStateM.bind, h]

/-- One line fed to a draft and to the assembler. -/
theorem Represents.feedLine_cases (h : d.Represents a) (ha : a.Bounded) (line : Nat)
    (text : String) :
    (∃ d' b, Draft.feedLine line text d = .ok () d' ∧ a.feed text = .ok b ∧
        Represents d' b ∧ b.Bounded) ∨
      ∃ f, Draft.feedLine line text d = .error (.atLine line f) d ∧ a.feed text = .error f := by
  have hline := matches_feedLine line h ha text
  generalize Draft.feedLine line text d = r at hline ⊢
  generalize hx : a.feed text = x at hline ⊢
  cases hline with
  | @accepted d' b h' =>
    refine .inl ⟨d', b, rfl, rfl, h', ?_⟩
    rcases Assembler.feed_cases hx with rfl | ⟨_, hs⟩
    · exact ha
    · exact hs.bounded ha
  | @refused f => exact .inr ⟨f, rfl, rfl⟩

/-- A draft that refuses a line is left as it is, with the fault that the assembler
    finds and the number of the line. -/
theorem Represents.of_refused (h : d.Represents a) (ha : a.Bounded) {text : String}
    {e : AssemblyError} {d' : Draft} (he : Draft.feedLine line text d = .error e d') :
    d' = d ∧ ∃ f, e = .atLine line f ∧ a.feed text = .error f := by
  rcases h.feedLine_cases ha line text with ⟨_, _, hd, -⟩ | ⟨f, hd, hf⟩
  · exact nomatch hd.symm.trans he
  · obtain ⟨rfl, rfl⟩ := EStateM.Result.error.inj (hd.symm.trans he)
    exact ⟨rfl, f, rfl, hf⟩

theorem Represents.feedAll (h : d.Represents a) (ha : a.Bounded) (calls : List (Nat × String)) :
    (d.feedAll calls).Represents (a.feedAll calls) ∧ (a.feedAll calls).Bounded := by
  induction calls generalizing d a with
  | nil => exact ⟨h, ha⟩
  | cons call calls ih =>
    rw [Draft.feedAll, Assembler.feedAll, List.foldl_cons, List.foldl_cons, Assembler.feedLine]
    rcases h.feedLine_cases ha call.1 call.2 with ⟨d', b, hd, hb, h', hb'⟩ | ⟨f, hd, hb⟩
    · rw [hd, hb]
      exact ih h' hb'
    · rw [hd, hb]
      exact ih h ha

/-- The lines that are accepted are accepted without the other ones, too. -/
theorem Represents.feedEach_accepted (h : d.Represents a) (ha : a.Bounded)
    (calls : List (Nat × String)) :
    feedEach (d.accepted calls) d = .ok () (d.feedAll calls) := by
  induction calls generalizing d a with
  | nil => rfl
  | cons call calls ih =>
    rw [Draft.feedAll, List.foldl_cons, accepted]
    rcases h.feedLine_cases ha call.1 call.2 with ⟨d', b, hd, -, h', hb'⟩ | ⟨f, hd, -⟩
    · rw [hd]
      exact (bind_of_ok hd).trans (ih h' hb')
    · rw [hd]
      exact ih h ha

end Draft

/-- Whatever lines came before, of which some may have been refused, a line that is
    refused leaves the draft as it is, and feeding lines comes to the same as feeding
    those of them that are accepted. All along the draft has what the assembler has,
    and takes in, refuses and finishes what the assembler does. -/
theorem refused_lines_leave_no_trace (l : Layout) (before : List (Nat × String)) :
    let d := (Draft.initial l).feedAll before
    let a := (Assembler.initial l).feedAll before
    (∀ number text e d', Draft.feedLine number text d = .error e d' → d' = d) ∧
      (∀ calls, Draft.feedEach (d.accepted calls) d = .ok () (d.feedAll calls)) ∧
      d.Represents a ∧ d.programPointer = a.programPointer ∧ d.dataPointer = a.dataPointer ∧
      d.finish = a.finish ∧
      ∀ number text, Draft.Matches number d (Draft.feedLine number text d) (a.feed text) := by
  intro d a
  obtain ⟨h, ha⟩ := (Draft.represents_initial l).feedAll (Assembler.bounded_initial l) before
  exact ⟨fun _ _ _ _ he => (h.of_refused ha he).1, h.feedEach_accepted ha, h,
    h.programPointer_eq, h.dataPointer_eq, h.finish_eq,
    fun number => Draft.matches_feedLine number h ha⟩

/-! ## Instructions -/

namespace Draft

variable {d : Draft} {line : Nat}

/-- The text of an instruction is read as the instruction in a code section. -/
theorem feedLine_of_text (h : d.part.kind = .code) (i : Instruction) :
    feedLine line i.text d = emit line i d := by
  rw [feedLine, Line.parse_text]
  change feedParsed line (.statement _ _) d = _
  have hstatement : (do
      let values ← demand line ((i.arguments.map Argument.operand).mapM d.symbols.resolve)
      emit line (← demand line (Instruction.ofStatement i.opcode.mnemonic values))) d =
        emit line i d := by
    rw [i.mapM_resolve]
    change (demand line (Instruction.ofStatement _ _) >>= _) d = _
    rw [i.ofStatement_arguments]
    rfl
  obtain ⟨l, part, t, code, data⟩ := d
  cases part with
  | start | function => exact hstatement
  | outside | data => exact nomatch h

/-- With room for it, an instruction puts its bytes behind the code. -/
theorem emit_of_le {i : Instruction} (h : d.code.size + i.length ≤ d.layout.programSize.toNat) :
    emit line i d = .ok () { d with code := d.code ++ i.encode.toArray } := by
  have hsize : (UInt32.ofNat d.code.size).toNat = d.code.size :=
    UInt32.toNat_ofNat_of_lt' <|
      calc d.code.size
        _ ≤ d.layout.programSize.toNat := Nat.le_of_add_right_le h
        _ < UInt32.size := d.layout.programSize.toNat_lt
  have hbytes : Instruction.encodeInto d.code i = d.code ++ i.encode.toArray :=
    Array.toList_inj.1 (by simp)
  change (if _ - (UInt32.ofNat d.code.size).toNat < _ then _ else _ : Editing Unit) d = _
  rw [hsize, if_neg (by omega), ← hbytes]
  rfl

end Draft

/-- Whatever lines came before and whatever names they defined, the text of an
    instruction is accepted in a code section that has room for the instruction. It
    adds the bytes of the instruction to the code, and changes nothing else. -/
theorem feedLine_text (l : Layout) (before : List (Nat × String)) (number : Nat) (i : Instruction)
    (hpart : let d := (Draft.initial l).feedAll before
      d.part = .start ∨ ∃ label, d.part = .function label)
    (hroom : ((Draft.initial l).feedAll before).code.size + i.length ≤ l.programSize.toNat) :
    let d := (Draft.initial l).feedAll before
    let a := (Assembler.initial l).feedAll before
    Draft.feedLine number i.text d = .ok () { d with code := d.code ++ i.encode.toArray } ∧
      a.feedLine number i.text = .ok { a with code := a.code.push i } := by
  intro d a
  obtain ⟨h, -⟩ := (Draft.represents_initial l).feedAll (Assembler.bounded_initial l) before
  have hlayout : a.layout = l := (Assembler.fits_feedAll l before).layout
  have hkind : d.part.kind = .code := by
    rcases hpart with heq | ⟨label, heq⟩ <;> rw [heq] <;> rfl
  constructor
  · rw [Draft.feedLine_of_text hkind, Draft.emit_of_le]
    rwa [h.layout_eq, hlayout]
  · rw [Assembler.feedLine, Assembler.feed_text (h.kind_eq ▸ hkind), Except.mapError_eq_ok_iff,
      Assembler.emit_eq_ok_iff, hlayout, ← a.size_codeBuffer, ← h.code_eq]
    exact ⟨hroom, rfl⟩

/-- The lines before define a constant with the name of the mnemonic, and a label
    that looks like a part of the address. -/
theorem feedLine_text_sample :
    let d := (Draft.initial Source.sampleLayout).feedAll
      [(1, ".data"), (2, "STORE = 40"), (3, ".x0028"), (4, ".data ?")]
    d.part = .function "x0028" ∧ d.symbols.constants.contains "STORE" ∧ d.code.size = 8 ∧
      (Instruction.store 40 .ip).text = "STORE 0x0028, IP" ∧
      Draft.feedLine 5 (Instruction.store 40 .ip).text d =
        .ok () { d with code := d.code ++ #[0x04, 8, 0, 0, 40, 0, 0, 0] } := by
  intro d
  have hpart : d.part = .function "x0028" := by decide +kernel
  have hsize : d.code.size = 8 := by decide +kernel
  have hroom : d.code.size + (Instruction.store 40 .ip).length ≤
      Source.sampleLayout.programSize.toNat := by
    rw [hsize]
    decide
  exact ⟨hpart, by decide +kernel, hsize, by decide +kernel,
    (feedLine_text Source.sampleLayout _ 5 (.store 40 .ip) (.inr ⟨_, hpart⟩) hroom).1⟩

end Machine32
