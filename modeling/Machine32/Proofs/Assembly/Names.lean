import Machine32.Proofs.NameTables
import Machine32.Proofs.Assembly.Lexing
import Machine32.Proofs.Assembly.Feeding

/-!
# The names of a text

What the assembler knows about the names it has taken in:

* a name is spelled as one, and is not the name of a register (`Definable`);
* the constants are the words of data, each with its own name (`Definitions`);
* a label stands for a boundary of the code, and the first instruction has one
  (`Regular`).

Every line preserves this, and so it holds of every text (`regular_of_feeds`).
-/

namespace Machine32

/-- A name that a line can define. -/
structure Definable (name : String) : Prop where
  isName : IsName name.toList
  ofName?_eq : Register.ofName? name = none

/-- The label of a directive is the entry point, or else its own name. -/
theorem labelOf?_cases {name label : String} (h : labelOf? name = some label) :
    label = Assembler.startLabel ∨
      (label = name ∧ Ascii.lower name ≠ "data" ∧ Ascii.lower name ≠ Assembler.startLabel) := by
  rw [labelOf?] at h
  split at h
  · cases h
  next hdata =>
  split at h
  · exact .inl (Option.some.inj h).symm
  · next hstart => exact .inr ⟨(Option.some.inj h).symm, hdata, hstart⟩

/-- A directive of the name of a label binds this label. -/
theorem labelOf?_label {name label : String} (h : labelOf? name = some label) :
    labelOf? label = some label := by
  rcases labelOf?_cases h with rfl | ⟨rfl, hdata, hstart⟩
  · decide
  · rw [labelOf?, if_neg hdata, if_neg hstart]

/-- A label is spelled like the directive that binds it, or else it is the
    entry point. -/
theorem isName_of_labelOf? {name label : String} (h : labelOf? name = some label)
    (hname : IsName name.toList) : IsName label.toList := by
  rcases labelOf?_cases h with rfl | ⟨rfl, -, -⟩
  · decide
  · exact hname

/-! ## Words of data -/

/-- Words with names, as constants in the data segment behind `n` words. -/
def placed (l : Layout) : Nat → List (String × Word) → List (String × Constant)
  | _, [] => []
  | n, (name, w) :: ds =>
    (name, ⟨l.programSize + UInt32.ofNat (n * Word.size), w⟩) :: placed l (n + 1) ds

theorem placed_concat (l : Layout) (n : Nat) (ds : List (String × Word)) (name : String)
    (w : Word) :
    placed l n (ds ++ [(name, w)]) = placed l n ds ++
      [(name, ⟨l.programSize + UInt32.ofNat ((n + ds.length) * Word.size), w⟩)] := by
  induction ds generalizing n with
  | nil => rfl
  | cons d ds ih =>
    rw [List.cons_append, placed, ih, placed, List.length_cons, Nat.add_right_comm, Nat.add_assoc,
      List.cons_append]

theorem map_fst_placed (l : Layout) (n : Nat) (ds : List (String × Word)) :
    (placed l n ds).map (·.1) = ds.map (·.1) := by
  induction ds generalizing n with
  | nil => rfl
  | cons d ds ih => rw [placed, List.map_cons, ih, List.map_cons]

namespace Assembler

/-- The constants are the words `ds`, in this order. -/
structure Definitions (a : Assembler) (ds : List (String × Word)) : Prop where
  constants_eq : a.symbols.constants = NameTable.ofList (placed a.layout 0 ds)
  data_eq : a.data.toList = ds.map (·.2)
  nodup : (ds.map (·.1)).Nodup
  definable : ∀ d ∈ ds, Definable d.1

variable {a b : Assembler} {ds : List (String × Word)}

theorem Definitions.size_data (h : a.Definitions ds) : a.data.size = ds.length := by
  rw [← Array.length_toList, h.data_eq, List.length_map]

theorem Definitions.perm (h : a.Definitions ds) :
    a.symbols.constants.entries.Perm (placed a.layout 0 ds) := by
  rw [h.constants_eq]
  refine NameTable.perm_ofList ?_
  rw [map_fst_placed]
  exact h.nodup

/-- The names of the words are those that are bound. -/
theorem Definitions.get?_eq_none_iff (h : a.Definitions ds) {name : String} :
    a.symbols.constants.get? name = none ↔ name ∉ ds.map (·.1) := by
  rw [NameTable.get?_eq_none_iff, ← map_fst_placed a.layout 0 ds, List.mem_map]
  constructor
  · rintro hne ⟨e, he, heq⟩
    exact hne e (h.perm.mem_iff.2 he) heq
  · exact fun hnot e he heq => hnot ⟨e, h.perm.mem_iff.1 he, heq⟩

/-- The assembler with one more word of data. -/
def define (a : Assembler) (name : String) (w : Word) : Assembler :=
  { a with
    symbols :=
      { a.symbols with constants := a.symbols.constants.insert name ⟨a.dataPointer, w⟩ }
    data := a.data.push w }

theorem Definitions.concat (h : a.Definitions ds) {name : String} (w : Word)
    (hname : Definable name) (hnot : a.symbols.constants.get? name = none) :
    (a.define name w).Definitions (ds ++ [(name, w)]) where
  constants_eq := by
    rw [placed_concat, NameTable.ofList_concat, define, Nat.zero_add, ← h.size_data,
      ← h.constants_eq]
    rfl
  data_eq := by
    rw [define, Array.toList_push, h.data_eq, List.map_append]
    rfl
  nodup := by
    rw [List.map_append, List.nodup_append_comm]
    exact List.nodup_cons.2 ⟨h.get?_eq_none_iff.1 hnot, h.nodup⟩
  definable := by
    intro d hd
    rcases List.mem_append.1 hd with hd | hd
    · exact h.definable d hd
    · rw [List.mem_singleton.1 hd]
      exact hname

/-! ## Labels -/

/-- What holds of the names a text defines. -/
structure Regular (a : Assembler) : Prop extends a.Bounded where
  definable : ∀ {name : String} {x : Address},
    a.symbols.labels.get? name = some x → Definable name ∧ labelOf? name = some name
  boundary : ∀ {name : String} {x : Address}, a.symbols.labels.get? name = some x →
    Instruction.Boundary entryLength a.code.toList x.toNat
  /-- Code begins with a label. -/
  entered : a.current = .code ∨ a.code.toList ≠ [] →
    ∃ name x, a.symbols.labels.get? name = some x ∧ x.toNat = entryLength
  definitions : ∃ ds, a.Definitions ds

theorem regular_initial (l : Layout) : (initial l).Regular where
  toBounded := bounded_initial l
  definable h := nomatch h
  boundary h := nomatch h
  entered h := by
    rcases h with h | h
    · exact nomatch h
    · exact absurd rfl h
  definitions := ⟨[], rfl, rfl, .nil, fun _ hd => absurd hd List.not_mem_nil⟩

theorem Definitions.of_eq (h : a.Definitions ds) (hl : b.layout = a.layout)
    (hc : b.symbols.constants = a.symbols.constants) (hd : b.data = a.data) :
    b.Definitions ds where
  constants_eq := by rw [hc, hl, h.constants_eq]
  data_eq := by rw [hd, h.data_eq]
  nodup := h.nodup
  definable := h.definable

theorem Step.regular {line : Line} (h : a.Step line b) (ha : a.Regular) (hn : line.Named) :
    b.Regular := by
  have hb := h.bounded ha.toBounded
  obtain ⟨ds, hds⟩ := ha.definitions
  cases h with
  | data =>
    refine ⟨hb, ha.definable, ha.boundary, fun h => ha.entered ?_, ds, hds.of_eq rfl rfl rfl⟩
    exact h.imp_left fun h => nomatch h
  | @label name label hl hr hf =>
    have hpp := ha.toBounded.toNat_programPointer
    rw [a.codeSize_eq_totalLength] at hpp
    refine ⟨hb, ?_, ?_, fun _ => ?_, ds, hds.of_eq rfl rfl rfl⟩
    · intro n x hx
      rw [NameTable.get?_insert] at hx
      split at hx
      · next heq =>
        subst heq
        exact ⟨⟨isName_of_labelOf? hl hn, hr⟩, labelOf?_label hl⟩
      · exact ha.definable hx
    · intro n x hx
      rw [NameTable.get?_insert] at hx
      split at hx
      · obtain rfl := Option.some.inj hx
        exact .inr hpp
      · exact ha.boundary hx
    · -- The first label is at the start of the code; later ones leave it there.
      by_cases hcode : a.code.toList = []
      · refine ⟨label, a.programPointer, ?_, ?_⟩
        · exact NameTable.get?_insert_self ..
        · rw [hpp, hcode, Instruction.totalLength_nil, Nat.add_zero]
      · obtain ⟨n, x, hx, hentry⟩ := ha.entered (.inr hcode)
        have hne : n ≠ label := by
          rintro rfl
          exact nomatch hf.symm.trans hx
        exact ⟨n, x, (NameTable.get?_insert_of_ne hne _).trans hx, hentry⟩
  | @constant name value hc hv hs hr hf =>
    exact ⟨hb, ha.definable, ha.boundary, ha.entered, _, hds.concat _ ⟨hn, hr⟩ hf⟩
  | @statement _ _ _ i hc =>
    refine ⟨hb, ha.definable, fun hx => ?_, fun _ => ha.entered (.inl hc), ds,
      hds.of_eq rfl rfl rfl⟩
    rw [Array.toList_push]
    exact (ha.boundary hx).append [i]

/-- The names of a text are as they should be. -/
theorem regular_of_feeds {l : Layout} {lines : List (Option Line)}
    (h : (initial l).Feeds lines a) (hn : ∀ line, some line ∈ lines → line.Named) :
    a.Regular := by
  refine h.invariant (P := fun before a => (∀ line, some line ∈ before → line.Named) → a.Regular)
    (fun _ => regular_initial l) ?_ ?_ hn
  · exact fun before a ha hb => ha fun line hline => hb line (List.mem_append_left _ hline)
  · intro before a line b ha hs hb
    refine hs.regular (ha fun line hline => hb line (List.mem_append_left _ hline)) ?_
    exact hb line (List.mem_append_right _ List.mem_cons_self)

theorem named_of_parses {texts : List String} {lines : List (Option Line)}
    (h : Parses texts lines) {line : Line} (hline : some line ∈ lines) : line.Named := by
  induction h with
  | nil => exact absurd hline List.not_mem_nil
  | cons hp _ ih =>
    rcases List.mem_cons.1 hline with rfl | hline
    · exact Line.named_of_parse hp
    · exact ih hline

end Assembler

end Machine32
