import Mathlib.Data.List.Pairwise
import Machine32.Proofs.Assembly.Placement
import Machine32.Proofs.Assembly.SourceText
import Machine32.Proofs.Assembly.Names

/-!
# Assembling the source text of a program

The source text of an assembled program is taken in again, line by line, and
gives the program back (`assemble_sourceText`), although its lines come in
another order than those of the text it was assembled from:

* the constants come first (`takes_data`), in the order of their addresses,
  which is the one they were defined in;
* then the code with its labels (`Rebuilds.takes_code`). Before the instruction
  at `n`, the labels defined are those that stand for an address below `n`.
-/

namespace Machine32

namespace Assembler

variable {a b c : Assembler}

/-- The lines `texts` are taken in, whatever their numbers. -/
structure Takes (a : Assembler) (texts : List String) (b : Assembler) : Prop where
  feedLines_eq (n : Nat) : a.feedLines n texts = .ok b
  newline_not_mem : ∀ text ∈ texts, '\n' ∉ text.toList

theorem Takes.nil (a : Assembler) : a.Takes [] a where
  feedLines_eq _ := rfl
  newline_not_mem _ h := absurd h List.not_mem_nil

theorem Takes.cons {text : String} {texts : List String} (h : a.feed text = .ok b)
    (hn : '\n' ∉ text.toList) (hs : b.Takes texts c) : a.Takes (text :: texts) c where
  feedLines_eq n := by
    have hline : a.feedLine n text = .ok b := Except.mapError_eq_ok_iff.2 h
    exact Except.bind_eq_ok_iff.2 ⟨b, hline, hs.feedLines_eq (n + 1)⟩
  newline_not_mem := List.forall_mem_cons.2 ⟨hn, hs.newline_not_mem⟩

theorem Takes.append {xs ys : List String} (h : a.Takes xs b) (hs : b.Takes ys c) :
    a.Takes (xs ++ ys) c where
  feedLines_eq n := by
    have hxs := h.feedLines_eq n
    clear h
    induction xs generalizing a n with
    | nil =>
      obtain rfl := Except.ok.inj hxs
      exact hs.feedLines_eq n
    | cons x xs ih =>
      obtain ⟨d, hd, hxs⟩ := Except.bind_eq_ok_iff.1 hxs
      exact Except.bind_eq_ok_iff.2 ⟨d, hd, ih (n + 1) hxs⟩
  newline_not_mem := List.forall_mem_append.2 ⟨h.newline_not_mem, hs.newline_not_mem⟩

theorem Takes.assemble_eq {l : Layout} {texts : List String} (h : (initial l).Takes texts b) :
    assemble l (String.join (texts.map (· ++ "\n"))) = b.finish := by
  have hlines := textLines_join h.newline_not_mem
  rw [textLines] at hlines
  rw [assemble, hlines, h.feedLines_eq]
  rfl

theorem feed_of_parse {text : String} {line : Line} (h : Line.parse text = .ok (some line)) :
    a.feed text = a.feedParsed line := by
  rw [feed, h]
  rfl

/-! ## Constants -/

/-- The line that names a word. -/
def dataLine (d : String × Word) : String :=
  d.1 ++ " = " ++ Numeral.signed (Word.toSigned d.2)

/-- A data section takes in the line of a word as long as there is room. -/
theorem feed_dataLine {name : String} {w : Word} (hc : a.current = .data) (hname : Definable name)
    (hnone : a.symbols.constants.get? name = none)
    (hs : a.dataSize + Word.size ≤ a.layout.dataSize.toNat) :
    a.feed (dataLine (name, w)) = .ok (a.define name w) := by
  rw [dataLine, feed_of_parse (Line.parse_assignment hname.isName (Token.fits64_toSigned w)),
    feedParsed_eq_ok_iff]
  obtain ⟨hfits, hw⟩ := Word.ofNumber_eq_ok_iff.1 (Word.ofNumber_toSigned w)
  have hstep := Step.constant hc hfits hs hname.ofName?_eq hnone
  rwa [← hw] at hstep

/-- The constants behind `n` words of data have greater addresses. -/
theorem le_address_of_mem_placed {l : Layout} {n : Nat} {ds : List (String × Word)}
    (hlen : (n + ds.length) * Word.size ≤ l.dataSize.toNat) {c : String × Constant}
    (h : c ∈ placed l n ds) :
    l.programSize.toNat + n * Word.size ≤ c.2.address.toNat := by
  induction ds generalizing n with
  | nil => exact absurd h List.not_mem_nil
  | cons d ds ih =>
    rw [List.length_cons, ← Nat.add_assoc, Nat.add_right_comm] at hlen
    rw [placed] at h
    rcases List.mem_cons.1 h with rfl | h
    · have hle : n * Word.size ≤ (n + 1 + ds.length) * Word.size :=
        Nat.mul_le_mul_right _ (by omega)
      exact Nat.le_of_eq (l.toNat_dataAddress (Nat.le_trans hle hlen)).symm
    · have hle := ih hlen h
      rw [Nat.succ_mul] at hle
      exact Nat.le_trans (Nat.add_le_add_left (Nat.le_add_right _ _) _) hle

theorem pairwise_placed {l : Layout} {n : Nat} {ds : List (String × Word)}
    (hlen : (n + ds.length) * Word.size ≤ l.dataSize.toNat) :
    (placed l n ds).Pairwise fun c d => c.2.address < d.2.address := by
  induction ds generalizing n with
  | nil => exact .nil
  | cons d ds ih =>
    rw [List.length_cons, ← Nat.add_assoc, Nat.add_right_comm] at hlen
    refine List.pairwise_cons.2 ⟨fun c hc => ?_, ih hlen⟩
    have hle := le_address_of_mem_placed hlen hc
    have hle' : n * Word.size ≤ (n + 1 + ds.length) * Word.size :=
      Nat.mul_le_mul_right _ (by omega)
    rw [UInt32.lt_iff_toNat_lt, l.toNat_dataAddress (Nat.le_trans hle' hlen)]
    have hsize : 0 < Word.size := by decide
    rw [Nat.succ_mul] at hle
    omega

/-- Definitions are accepted one after the other, as long as their words fit the segment. -/
theorem takes_data {l : Layout} {ds : List (String × Word)} (hdef : ∀ d ∈ ds, Definable d.1)
    (hnodup : (ds.map (·.1)).Nodup) (hlen : ds.length * Word.size ≤ l.dataSize.toNat) :
    ∃ b, { initial l with current := .data }.Takes (ds.map dataLine) b ∧ b.Definitions ds ∧
      b.layout = l ∧ b.current = .data ∧ b.code = #[] ∧ b.symbols.labels = ∅ := by
  induction ds using List.reverseRecOn with
  | nil => exact ⟨_, .nil _, ⟨rfl, rfl, .nil, hdef⟩, rfl, rfl, rfl, rfl⟩
  | append_singleton ds d ih =>
    obtain ⟨name, w⟩ := d
    rw [List.map_append, List.nodup_append_comm] at hnodup
    obtain ⟨hnot, hnodup⟩ := List.nodup_cons.1 hnodup
    obtain ⟨hdef, hname⟩ := List.forall_mem_append.1 hdef
    rw [List.length_append, List.length_singleton, Nat.succ_mul] at hlen
    obtain ⟨b, htakes, hb, hl, hc, hcode, hlabels⟩ := ih hdef hnodup (by omega)
    have hname : Definable name := hname _ List.mem_cons_self
    have hnone := hb.get?_eq_none_iff.2 hnot
    have hroom : b.dataSize + Word.size ≤ b.layout.dataSize.toNat := by
      rw [dataSize, hb.size_data, hl]
      exact hlen
    have hline := newline_not_mem_assignment hname.isName (Token.fits64_toSigned w)
    refine ⟨b.define name w, ?_, hb.concat w hname hnone, hl, hc, hcode, hlabels⟩
    rw [List.map_append]
    exact htakes.append (.cons (feed_dataLine hc hname hnone hroom) hline (.nil _))

/-- The constants in the order of their addresses are in the order of their
    definitions. -/
theorem Definitions.mergeSort_eq {ds : List (String × Word)} (h : a.Definitions ds)
    (hb : a.Bounded) :
    (a.symbols.constants.entries.mergeSort fun c d => c.2.address ≤ d.2.address) =
      placed a.layout 0 ds := by
  have hlen : (0 + ds.length) * Word.size ≤ a.layout.dataSize.toNat := by
    rw [Nat.zero_add, ← h.size_data]
    exact hb.dataSize_le
  have hperm := (List.mergeSort_perm a.symbols.constants.entries
    (fun c d => decide (c.2.address ≤ d.2.address))).trans h.perm
  have hlt := pairwise_placed hlen
  have hnodup : ((placed a.layout 0 ds).map (·.2.address)).Nodup :=
    List.pairwise_map.2 (hlt.imp UInt32.ne_of_lt)
  -- Both lists are in order, and no two constants have one address.
  refine List.Perm.eq_of_pairwise ?_ ?_ (hlt.imp fun hlt => decide_eq_true (UInt32.le_of_lt hlt))
    hperm
  · intro c d hc hd hcd hdc
    exact List.inj_on_of_nodup_map hnodup (hperm.mem_iff.1 hc) hd
      (UInt32.le_antisymm (of_decide_eq_true hcd) (of_decide_eq_true hdc))
  · refine List.pairwise_mergeSort ?_ ?_ _
    · intro c d e hcd hde
      exact decide_eq_true (UInt32.le_trans (of_decide_eq_true hcd) (of_decide_eq_true hde))
    · intro c d
      simpa using UInt32.le_total c.2.address d.2.address

/-- The lines of the constants are the words in the order of their
    definitions. -/
theorem Definitions.dataLines_eq {ds : List (String × Word)} (h : a.Definitions ds)
    (hb : a.Bounded) {p : Program} (hp : p.constants = a.symbols.constants) :
    p.dataLines = if ds = [] then [] else ".data" :: ds.map dataLine := by
  have hempty : p.constants.entries.isEmpty = true ↔ ds = [] := by
    rw [hp, List.isEmpty_iff, ← List.length_eq_zero_iff, h.perm.length_eq,
      ← List.length_map (f := fun c : String × Constant => c.1), map_fst_placed, List.length_map,
      List.length_eq_zero_iff]
  have hlines (n : Nat) : (placed a.layout n ds).map (fun c => c.1 ++ " = " ++
      Numeral.signed (Word.toSigned c.2.value)) = ds.map dataLine := by
    clear h hempty
    induction ds generalizing n with
    | nil => rfl
    | cons d ds ih => rw [placed, List.map_cons, ih, List.map_cons, dataLine]
  simp only [Program.dataLines, hempty]
  rw [hp, h.mergeSort_eq hb, hlines]

/-- The constants are taken in again, behind the directive of a data section
    unless there are none. -/
theorem Definitions.takes_dataLines {ds : List (String × Word)} (h : a.Definitions ds)
    (ha : a.Bounded) {p : Program} (hp : p.constants = a.symbols.constants) :
    ∃ b, (initial a.layout).Takes p.dataLines b ∧ b.Definitions ds ∧ b.layout = a.layout ∧
      b.code = #[] ∧ b.symbols.labels = ∅ := by
  have hlen : ds.length * Word.size ≤ a.layout.dataSize.toNat := by
    rw [← h.size_data]
    exact ha.dataSize_le
  rw [h.dataLines_eq ha hp]
  split
  · next hnil =>
    subst hnil
    exact ⟨_, .nil _, ⟨rfl, rfl, .nil, h.definable⟩, rfl, rfl, rfl⟩
  · obtain ⟨b, htakes, hb, hl, -, hcode, hempty⟩ := takes_data h.definable h.nodup hlen
    refine ⟨b, .cons ?_ (by decide) htakes, hb, hl, hcode, hempty⟩
    have hparse : Line.parse ".data" = .ok (some (.directive "data")) := by decide +kernel
    have hlabel : labelOf? "data" = none := by decide
    rw [feed_of_parse hparse, feedParsed_eq_ok_iff]
    exact .data hlabel

/-! ## Labels -/

/-- The assembler with a code section opened under a label. -/
def enter (a : Assembler) (label : String) : Assembler :=
  { a with
    symbols := { a.symbols with labels := a.symbols.labels.insert label a.programPointer }
    current := .code }

theorem get?_enter (a : Assembler) (label name : String) :
    (a.enter label).symbols.labels.get? name =
      if name = label then some a.programPointer else a.symbols.labels.get? name :=
  NameTable.get?_insert ..

/-- A code section is opened under a label that is not bound. -/
theorem feed_directive {name : String} (hname : Definable name) (hlabel : labelOf? name = some name)
    (hnone : a.symbols.labels.get? name = none) : a.feed ("." ++ name) = .ok (a.enter name) := by
  rw [feed_of_parse (Line.parse_directive hname.isName), feedParsed_eq_ok_iff]
  exact .label hlabel hname.ofName?_eq hnone

/-- Different labels are bound to the same address. -/
theorem takes_labels {names : List String}
    (hdef : ∀ name ∈ names, Definable name ∧ labelOf? name = some name)
    (hnone : ∀ name ∈ names, a.symbols.labels.get? name = none) (hnodup : names.Nodup) :
    ∃ b, a.Takes (names.map ("." ++ ·)) b ∧ b.layout = a.layout ∧ b.code = a.code ∧
      b.data = a.data ∧ b.symbols.constants = a.symbols.constants ∧
      (∀ name, b.symbols.labels.get? name =
        if name ∈ names then some a.programPointer else a.symbols.labels.get? name) ∧
      (a.current = .code ∨ names ≠ [] → b.current = .code) := by
  induction names generalizing a with
  | nil =>
    refine ⟨a, .nil a, rfl, rfl, rfl, rfl, fun name => ?_, fun h => ?_⟩
    · rw [if_neg List.not_mem_nil]
    · exact h.resolve_right fun hne => hne rfl
  | cons label names ih =>
    obtain ⟨⟨hname, hlabel⟩, hdef⟩ := List.forall_mem_cons.1 hdef
    obtain ⟨hfree, hnone⟩ := List.forall_mem_cons.1 hnone
    obtain ⟨hnot, hnodup⟩ := List.nodup_cons.1 hnodup
    have hnone (name : String) (hmem : name ∈ names) :
        (a.enter label).symbols.labels.get? name = none := by
      have hne : name ≠ label := fun heq => hnot (heq ▸ hmem)
      rw [get?_enter, if_neg hne, hnone name hmem]
    obtain ⟨b, htakes, hl, hcode, hdata, hconstants, hlabels, hcurrent⟩ := ih hdef hnone hnodup
    refine ⟨b, .cons (feed_directive hname hlabel hfree) (newline_not_mem_directive hname.isName)
      htakes, hl, hcode, hdata, hconstants, fun name => ?_, fun _ => hcurrent (.inl rfl)⟩
    rw [hlabels, get?_enter]
    by_cases heq : name = label
    · subst heq
      rw [if_neg hnot, if_pos rfl, if_pos List.mem_cons_self]
    · simp only [List.mem_cons, heq, false_or, if_false]
      rfl

end Assembler

/-- The labels at an address are those bound to it. -/
theorem Program.mem_labelsAt_iff {p : Program} {x : Address} {name : String} :
    name ∈ p.labelsAt x ↔ p.labels.get? name = some x := by
  rw [← NameTable.mem_entries_iff]
  simp [labelsAt]

theorem Program.nodup_labelsAt (p : Program) (x : Address) : (p.labelsAt x).Nodup :=
  p.labels.nodup_names.sublist (List.filter_sublist.map _)

namespace Assembler

/-! ## Code -/

variable {a b : Assembler} {p : Program}

/-- What `a` has besides code is there again in `b`, of the labels those that
    stand for an address below `n`. -/
structure Rebuilds (a : Assembler) (n : Nat) (b : Assembler) : Prop where
  layout_eq : b.layout = a.layout
  data_eq : b.data = a.data
  constants_eq : b.symbols.constants = a.symbols.constants
  labels_iff : ∀ {name : String} {x : Address}, b.symbols.labels.get? name = some x ↔
    a.symbols.labels.get? name = some x ∧ x.toNat < n

theorem Rebuilds.bounded {n : Nat} (h : a.Rebuilds n b) (ha : a.Bounded) {post : List Instruction}
    (hcode : a.code.toList = b.code.toList ++ post) : b.Bounded where
  codeSize_le := by
    have hle := ha.codeSize_le
    rw [codeSize_eq_totalLength, hcode, Instruction.totalLength_append] at hle
    rw [codeSize_eq_totalLength, h.layout_eq]
    omega
  dataSize_le := by
    rw [dataSize, h.data_eq, h.layout_eq]
    exact ha.dataSize_le

/-- The labels of an address are bound where the code has come to it. -/
theorem Rebuilds.takes_labels (h : a.Rebuilds b.codeSize b) (ha : a.Regular) (hb : b.Bounded)
    (hp : p.labels = a.symbols.labels) :
    ∃ c, b.Takes (p.labelLines b.codeSize) c ∧ a.Rebuilds (b.codeSize + 1) c ∧ c.code = b.code ∧
      (b.current = .code ∨
        (∃ name x, a.symbols.labels.get? name = some x ∧ x.toNat = b.codeSize) →
        c.current = .code) := by
  have hpp := hb.toNat_programPointer
  have hmem {name : String} : name ∈ p.labelsAt b.programPointer ↔
      a.symbols.labels.get? name = some b.programPointer := by
    rw [Program.mem_labelsAt_iff, hp]
  have hnone (name : String) (hname : name ∈ p.labelsAt b.programPointer) :
      b.symbols.labels.get? name = none := by
    rw [Option.eq_none_iff_forall_ne_some]
    intro x hx
    obtain ⟨hx, hlt⟩ := h.labels_iff.1 hx
    obtain rfl := Option.some.inj (hx.symm.trans (hmem.1 hname))
    omega
  obtain ⟨c, htakes, hl, hcode, hdata, hconstants, hlabels, hcurrent⟩ :=
    Assembler.takes_labels (fun name hname => ha.definable (hmem.1 hname)) hnone
      (p.nodup_labelsAt b.programPointer)
  refine ⟨c, htakes, ⟨hl.trans h.layout_eq, hdata.trans h.data_eq, hconstants.trans h.constants_eq,
    fun {name x} => ?_⟩, hcode, fun hcur => hcurrent (hcur.imp_right ?_)⟩
  · -- A label of this address is new, any other one was there before or not.
    rw [hlabels]
    split
    · next hname =>
      rw [hmem.1 hname]
      constructor
      · intro hx
        obtain rfl := Option.some.inj hx
        exact ⟨rfl, by omega⟩
      · exact fun hx => hx.1
    · next hname =>
      rw [h.labels_iff]
      refine and_congr_right fun hx => ⟨fun hlt => by omega, fun hlt => ?_⟩
      have hne : x.toNat ≠ b.codeSize := by
        intro heq
        obtain rfl := UInt32.toNat_inj.1 (heq.trans hpp.symm)
        exact hname (hmem.2 hx)
      omega
  · rintro ⟨name, x, hx, heq⟩
    obtain rfl := UInt32.toNat_inj.1 (heq.trans hpp.symm)
    exact List.ne_nil_of_mem (hmem.2 hx)

/-- An instruction is put behind the code again. -/
theorem Rebuilds.emit (h : a.Rebuilds (b.codeSize + 1) b) (ha : a.Regular)
    {i : Instruction} {post : List Instruction} (hcode : a.code.toList = b.code.toList ++ i :: post)
    (hc : b.current = .code) :
    b.feed i.text = .ok { b with code := b.code.push i } ∧
      a.Rebuilds (b.codeSize + i.length) { b with code := b.code.push i } := by
  have hsize := ha.codeSize_le
  rw [a.codeSize_eq_totalLength, hcode, Instruction.totalLength_append,
    Instruction.totalLength_cons] at hsize
  constructor
  · rw [feed_text hc, emit_eq_ok_iff, b.codeSize_eq_totalLength, h.layout_eq]
    exact ⟨by omega, rfl⟩
  · refine ⟨h.layout_eq, h.data_eq, h.constants_eq, fun {name x} => ?_⟩
    refine h.labels_iff.trans (and_congr_right fun hx => ?_)
    -- No label stands for an address inside the instruction.
    have hboundary := ha.boundary hx
    rw [hcode] at hboundary
    have hpos := i.length_pos
    rcases hboundary.le_or_le with hle | hle
    all_goals
      rw [b.codeSize_eq_totalLength]
      omega

/-- The code is taken in again, with its labels. -/
theorem Rebuilds.takes_code (h : a.Rebuilds b.codeSize b) (ha : a.Regular)
    (hp : p.labels = a.symbols.labels) {post : List Instruction}
    (hcode : a.code.toList = b.code.toList ++ post)
    (hc : b.current = .code ∨ b.code.toList = []) :
    ∃ c, b.Takes ((Instruction.located b.codeSize post).flatMap
        (fun w => p.labelLines w.1 ++ [w.2.text]) ++ p.labelLines a.codeSize) c ∧
      a.Rebuilds (a.codeSize + 1) c ∧ c.code = a.code := by
  induction post generalizing b with
  | nil =>
    have hb := h.bounded ha.toBounded hcode
    rw [List.append_nil] at hcode
    have hsize : b.codeSize = a.codeSize := by
      rw [codeSize_eq_totalLength, codeSize_eq_totalLength, hcode]
    obtain ⟨c, htakes, hc, hcode', -⟩ := h.takes_labels ha hb hp
    rw [hsize] at htakes hc
    exact ⟨c, htakes, hc, hcode'.trans (Array.toList_inj.1 hcode.symm)⟩
  | cons i post ih =>
    have hb := h.bounded ha.toBounded hcode
    -- First the labels of the address, with which code begins, then the instruction.
    obtain ⟨c, hlabels, hrebuilds, hcode', hcurrent⟩ := h.takes_labels ha hb hp
    have hcur : c.current = .code := by
      refine hcurrent (hc.imp_right fun hnil => ?_)
      obtain ⟨name, x, hx, hentry⟩ := ha.entered (.inr (by simp [hcode]))
      refine ⟨name, x, hx, ?_⟩
      rw [hentry, codeSize_eq_totalLength, hnil, Instruction.totalLength_nil, Nat.add_zero]
    have hsize : c.codeSize = b.codeSize := by rw [codeSize, hcode', ← codeSize]
    rw [← hsize] at hrebuilds
    rw [← hcode'] at hcode
    obtain ⟨hfeed, hrebuilds⟩ := hrebuilds.emit ha hcode hcur
    generalize hd : { c with code := c.code.push i } = d at hfeed hrebuilds
    have hdcode : d.code = c.code.push i := by rw [← hd]
    have hdsize : d.codeSize = b.codeSize + i.length := by rw [codeSize_of_push hdcode, hsize]
    have hdcur : d.current = .code := by rw [← hd]; exact hcur
    rw [hsize, ← hdsize] at hrebuilds
    have hrest : a.code.toList = d.code.toList ++ post := by
      rw [hcode, hdcode, Array.toList_push, List.append_cons]
    obtain ⟨e, htakes, he, hecode⟩ := ih hrebuilds hrest (.inl hdcur)
    refine ⟨e, ?_, he, hecode⟩
    rw [hdsize] at htakes
    rw [Instruction.located, List.flatMap_cons, List.append_assoc, List.append_assoc]
    exact hlabels.append (.cons hfeed i.newline_not_mem_text htakes)

/-- When all of the code is there again, so is the program. -/
theorem Rebuilds.finish_eq (h : a.Rebuilds (a.codeSize + 1) b) (ha : a.Regular)
    (hcode : b.code = a.code) : b.finish = a.finish := by
  have hlabels : b.symbols.labels = a.symbols.labels := by
    refine NameTable.ext_get? fun name => Option.ext fun x => ?_
    refine h.labels_iff.trans (and_iff_left_of_imp fun hx => ?_)
    obtain ⟨pre, post, heq, hx⟩ := Instruction.boundary_iff.1 (ha.boundary hx)
    rw [codeSize_eq_totalLength, heq, Instruction.totalLength_append]
    omega
  rw [finish, finish, hlabels, hcode, h.data_eq, h.constants_eq]

/-- The source text of a finished program is taken in as the program. -/
theorem Regular.assemble_eq (ha : a.Regular) (hfinish : a.finish = .ok p) :
    assemble a.layout
      (p.sourceText (Instruction.located entryLength a.code.toList)) = .ok p := by
  obtain ⟨ds, hds⟩ := ha.definitions
  obtain ⟨entry, -, rfl⟩ := finish_eq_ok_iff.1 hfinish
  obtain ⟨b, htakes, hb, hl, hcode, hempty⟩ :=
    hds.takes_dataLines ha.toBounded (p := a.program entry) rfl
  have hbsize : b.codeSize = entryLength := by rw [codeSize, hcode]; rfl
  have hrebuilds : a.Rebuilds b.codeSize b := by
    refine ⟨hl, ?_, ?_, fun {name x} => ?_⟩
    · rw [← Array.toList_inj, hb.data_eq, hds.data_eq]
    · rw [hb.constants_eq, hds.constants_eq, hl]
    · -- No label stands for an address in front of the code.
      rw [hempty, hbsize]
      constructor
      · rintro ⟨⟩
      · rintro ⟨hx, hlt⟩
        obtain ⟨pre, post, heq, hx⟩ := Instruction.boundary_iff.1 (ha.boundary hx)
        omega
  obtain ⟨c, hcode', hc, heq⟩ := hrebuilds.takes_code (p := a.program entry) ha rfl
    (by rw [hcode]; rfl) (.inr (by rw [hcode]))
  have hall := htakes.append hcode'
  rw [Program.sourceText, Program.sourceLines, List.append_assoc, length_code_program, ← hbsize,
    hall.assemble_eq, hc.finish_eq ha heq, hfinish]

end Assembler

/-- A program that the assembler made of a text can be written as source text
    again, decoding its code, which is assembled to the same program. -/
theorem assemble_sourceText {l : Layout} {source : String} {p : Program}
    (h : assemble l source = .ok p) :
    ∃ walked, Instruction.walk p.code entryLength = .ok (walked, p.code.length) ∧
      assemble l (p.sourceText walked) = .ok p := by
  obtain ⟨lines, a, hparses, hfeeds, hfinish⟩ := assemble_eq_ok_iff.1 h
  have ha := Assembler.regular_of_feeds hfeeds fun _ hline =>
    Assembler.named_of_parses hparses hline
  have hwalk : Instruction.walk p.code entryLength =
      .ok (Instruction.located entryLength a.code.toList, p.code.length) := by
    obtain ⟨entry, -, rfl⟩ := Assembler.finish_eq_ok_iff.1 hfinish
    rw [Assembler.program, Instruction.length_flatMap_encode]
    exact Instruction.walk_stream [.jump .call entry] a.code.toList
  refine ⟨_, hwalk, ?_⟩
  have hsource := ha.assemble_eq hfinish
  rwa [hfeeds.layout] at hsource

theorem assemble_sourceText_sample :
    assemble Source.sampleLayout Source.sampleText = .ok Source.sampleProgram ∧
    ∃ walked, Instruction.walk Source.sampleProgram.code entryLength =
        .ok (walked, Source.sampleProgram.code.length) ∧
      assemble Source.sampleLayout (Source.sampleProgram.sourceText walked) =
        .ok Source.sampleProgram := by
  have h : assemble Source.sampleLayout Source.sampleText = .ok Source.sampleProgram := by
    decide +kernel
  exact ⟨h, assemble_sourceText h⟩

end Machine32
