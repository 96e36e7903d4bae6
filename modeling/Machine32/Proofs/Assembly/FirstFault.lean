import Machine32.Proofs.Assembly.Drafts
import Machine32.Proofs.Assembly.LineEnds

/-!
# The first fault

A text that is no program has a first line that is refused after those before it,
and the error is the fault of this line with its number; or all its lines are
accepted, and none of them says where the program is entered:

* `Assembler.feedLines_eq_error_iff` for several lines, and `assemble_eq_error_iff`
  for a text;
* `assemble_first_fault`: so nothing behind the first line that is refused matters.
-/

namespace Machine32

namespace Assembler

variable {a b : Assembler} {n : Nat} {e : AssemblyError}

/-- Lines are taken in one part after the other. -/
theorem feedLines_append (a : Assembler) (n : Nat) (xs ys : List String) :
    a.feedLines n (xs ++ ys) = a.feedLines n xs >>= fun b => b.feedLines (n + xs.length) ys := by
  induction xs generalizing a n with
  | nil => rfl
  | cons x xs ih =>
    rw [List.cons_append, feedLines, feedLines, bind_assoc]
    refine congrArg _ (funext fun b => ?_)
    rw [ih, List.length_cons, Nat.add_right_comm, Nat.add_assoc]

/-- Lines are refused where one is refused after those before it are accepted. -/
theorem feedLines_eq_error_iff {texts : List String} :
    a.feedLines n texts = .error e ↔ ∃ before text after b, texts = before ++ text :: after ∧
      a.feedLines n before = .ok b ∧ b.feedLine (n + before.length) text = .error e := by
  constructor
  · intro h
    induction texts generalizing a n with
    | nil => exact nomatch h
    | cons text texts ih =>
      rcases Except.bind_eq_error_iff.1 h with h | ⟨b, hb, h⟩
      · exact ⟨[], text, texts, a, rfl, rfl, h⟩
      · obtain ⟨before, text', after, c, rfl, hc, h⟩ := ih h
        refine ⟨text :: before, text', after, c, rfl, Except.bind_eq_ok_iff.2 ⟨b, hb, hc⟩, ?_⟩
        rwa [List.length_cons, ← Nat.add_assoc, Nat.add_right_comm]
  · rintro ⟨before, text, after, b, rfl, hb, h⟩
    rw [feedLines_append, hb]
    exact Except.bind_eq_error_iff.2 (.inr ⟨b, rfl, Except.bind_eq_error_iff.2 (.inl h)⟩)

/-- The error of a line has its number. -/
theorem line?_of_feedLine {text : String} (h : a.feedLine n text = .error e) :
    e.line? = some n := by
  obtain ⟨f, -, rfl⟩ := Except.mapError_eq_error_iff.1 h
  rfl

theorem finish_eq_error_iff :
    a.finish = .error e ↔ a.symbols.labels.get? startLabel = none ∧ e = .missingEntryPoint := by
  rw [finish]
  split
  · next h => simp [h, eq_comm]
  · next h => simp [h]

end Assembler

open Assembler

variable {l : Layout} {source : String} {e : AssemblyError}

/-- What the error is if a text is no program. -/
theorem assemble_eq_error_iff :
    assemble l source = .error e ↔
      (∃ before text after a, Source.lineTexts source = before ++ text :: after ∧
        (initial l).feedLines 1 before = .ok a ∧
        a.feedLine (before.length + 1) text = .error e) ∨
      ∃ a, (initial l).feedLines 1 (Source.lineTexts source) = .ok a ∧
        a.symbols.labels.get? startLabel = none ∧ e = .missingEntryPoint := by
  rw [assemble_eq_lineTexts, Except.bind_eq_error_iff, feedLines_eq_error_iff]
  simp only [finish_eq_error_iff, Nat.add_comm 1]

/-- If the label of the entry point is not bound, there is no line that would bind
    it. -/
theorem not_start_of_feedLines {a : Assembler} {n : Nat} {texts : List String}
    (h : (initial l).feedLines n texts = .ok a) (hnone : a.symbols.labels.get? startLabel = none)
    {text name : String} (hmem : text ∈ texts)
    (hparse : Line.parse text = .ok (some (.directive name))) : Ascii.lower name ≠ startLabel := by
  intro hstart
  have hl : labelOf? name = some startLabel := by
    rw [labelOf?, hstart]
    rfl
  obtain ⟨lines, hlines, hfeeds⟩ := feedLines_eq_ok_iff.1 h
  obtain ⟨line, hline, hparse'⟩ := hlines.exists_mem hmem
  obtain rfl := Except.ok.inj (hparse.symm.trans hparse')
  obtain ⟨m, hm⟩ := List.mem_iff_getElem?.1 hline
  -- Had it been read, the label would be bound.
  obtain ⟨code, hreads⟩ := Source.reads_of_feeds hfeeds
  obtain ⟨x, hx, -⟩ := hreads.label ⟨_, hm, name, rfl, hl⟩
  cases hnone.symm.trans hx

/-- The error of a text has the number of the first line that is refused, and is the
    one of this line, whatever lines follow. Without a number it is that the entry
    point is missing: all lines are accepted, and none of them is its directive, in
    upper or lower case. The error of a line has the number that the line is given. -/
theorem assemble_first_fault (h : assemble l source = .error e) :
    (∀ k, e.line? = some k → ∃ before text after a,
      Source.lineTexts source = before ++ text :: after ∧ k = before.length + 1 ∧
      (initial l).feedLines 1 before = .ok a ∧ a.feedLine k text = .error e ∧
      ∀ other, (Source.lineTexts other).take k = (Source.lineTexts source).take k →
        assemble l other = .error e) ∧
    (e.line? = none → e = .missingEntryPoint ∧
      (∃ a, (initial l).feedLines 1 (Source.lineTexts source) = .ok a) ∧
      ∀ text ∈ Source.lineTexts source, ∀ name,
        Line.parse text = .ok (some (.directive name)) → Ascii.lower name ≠ startLabel) ∧
    (∀ (a : Assembler) n text e, a.feedLine n text = .error e → e.line? = some n) ∧
    ∀ calls n text e d, Draft.feedLine n text ((Draft.initial l).feedAll calls) = .error e d →
      e.line? = some n := by
  refine ⟨fun k hk => ?_, fun hk => ?_, fun _ _ _ _ => line?_of_feedLine, ?_⟩
  · rcases assemble_eq_error_iff.1 h with ⟨before, text, after, a, heq, ha, htext⟩ | ⟨_, -, -, rfl⟩
    · obtain rfl : k = before.length + 1 :=
        Option.some.inj (hk.symm.trans (line?_of_feedLine htext))
      refine ⟨before, text, after, a, heq, rfl, ha, htext, fun other hother => ?_⟩
      -- The other text begins with the same lines, up to the one that is refused.
      have hfront : (Source.lineTexts other).take (before.length + 1) = before ++ [text] := by
        rw [hother, heq, List.append_cons]
        exact List.take_left' List.length_append
      refine assemble_eq_error_iff.2 (.inl
        ⟨before, text, (Source.lineTexts other).drop (before.length + 1), a, ?_, ha, htext⟩)
      rw [List.append_cons, ← hfront, List.take_append_drop]
    · exact nomatch hk
  · rcases assemble_eq_error_iff.1 h with ⟨_, _, _, _, -, -, htext⟩ | ⟨a, ha, hnone, rfl⟩
    · exact nomatch hk.symm.trans (line?_of_feedLine htext)
    · exact ⟨rfl, ⟨a, ha⟩, fun _ hmem _ => not_start_of_feedLines ha hnone hmem⟩
  · intro calls n text e d he
    obtain ⟨hr, ha⟩ := (Draft.represents_initial l).feedAll (Assembler.bounded_initial l) calls
    obtain ⟨-, f, rfl, -⟩ := hr.of_refused ha he
    rfl

/-- The fourth line is refused, and what stands behind it does not matter. -/
theorem assemble_first_fault_sample :
    let source := "; add\r\n.START\nMOV EAX, 1\r\nADD EAX, 1\nHALT\n"
    let other := "; add\n.START\nMOV EAX, 1\nADD EAX, 1\n.start"
    assemble Source.sampleLayout source = .error (.atLine 4 (.invalidOperands (.alu .add))) ∧
      Source.lineTexts source =
        ["; add", ".START", "MOV EAX, 1", "ADD EAX, 1", "HALT"] ∧
      assemble Source.sampleLayout other = .error (.atLine 4 (.invalidOperands (.alu .add))) := by
  intro source other
  have h : assemble Source.sampleLayout source =
      .error (.atLine 4 (.invalidOperands (.alu .add))) := by decide +kernel
  obtain ⟨hline, -⟩ := assemble_first_fault h
  obtain ⟨_, _, _, _, -, -, -, -, hother⟩ := hline 4 rfl
  exact ⟨h, by decide +kernel, hother other (by decide +kernel)⟩

end Machine32
