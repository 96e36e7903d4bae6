import Machine32.Proofs.Assembly.Capacity
import Machine32.Proofs.Assembly.Emission
import Machine32.Proofs.Assembly.Placement

/-!
# Names that last

Names are never bound anew, so what a name stands for changes in one way only: a
label is shadowed once a constant of the same name is assigned, as labels and
constants have tables of their own and a constant goes before a label.

* `Assigns`: one of several lines assigns a constant to a name;
* `get?_constant_feedAll_iff`: the constants after the lines are those before them
  and those that they assign, and labels stay bound (`get?_label_feedAll`);
* `names_last`: so an operand keeps its value unless it is a name that gets
  shadowed.
-/

namespace Machine32

namespace Assembler

variable {a b : Assembler} {name : String} {c : Constant} {calls : List (Nat × String)}

/-- Fed to the assembler, one of the lines assigns the constant `c` to `name`, and
    is not refused. -/
inductive Assigns (name : String) (c : Constant) : Assembler → List (Nat × String) → Prop
  | here {a b : Assembler} {number : Nat} {text : String} {value : Int}
      {calls : List (Nat × String)} : Line.parse text = .ok (some (.assignment name value)) →
      a.feedLine number text = .ok b → c = ⟨a.dataPointer, Word.ofInt value⟩ →
      Assigns name c a ((number, text) :: calls)
  | later {a : Assembler} {call : Nat × String} {calls : List (Nat × String)} :
      Assigns name c (a.feedAll [call]) calls → Assigns name c a (call :: calls)

/-! ## The tables -/

/-- A line binds one constant if it is an assignment, and none otherwise. -/
theorem Step.get?_constant_iff {line : Line} (h : a.Step line b) :
    b.symbols.constants.get? name = some c ↔ a.symbols.constants.get? name = some c ∨
      ∃ value, line = .assignment name value ∧ c = ⟨a.dataPointer, Word.ofInt value⟩ := by
  cases h with
  | data | label | statement => simp
  | @constant name' value _ _ _ _ hnone =>
    by_cases hname : name = name'
    · subst hname
      simp [NameTable.get?_insert_self, hnone, eq_comm]
    · simp [NameTable.get?_insert_of_ne hname, Ne.symm hname]

theorem get?_constant_feedAll_singleton {number : Nat} {text : String} :
    (a.feedAll [(number, text)]).symbols.constants.get? name = some c ↔
      a.symbols.constants.get? name = some c ∨
        ∃ value b, Line.parse text = .ok (some (.assignment name value)) ∧
          a.feedLine number text = .ok b ∧ c = ⟨a.dataPointer, Word.ofInt value⟩ := by
  rw [feedAll, List.foldl_cons, List.foldl_nil]
  cases hb : a.feedLine number text with
  | error e => simp
  | ok b =>
    obtain ⟨line, hline, hfeeds⟩ := feed_eq_ok_iff.1 (Except.mapError_eq_ok_iff.1 hb)
    rcases hfeeds with _ | ⟨⟨⟩⟩ | ⟨hs, ⟨⟩⟩
    · simp [hline]
    · simp [hline, hs.get?_constant_iff]

theorem assigns_cons_iff {number : Nat} {text : String} :
    Assigns name c a ((number, text) :: calls) ↔
      (∃ value b, Line.parse text = .ok (some (.assignment name value)) ∧
        a.feedLine number text = .ok b ∧ c = ⟨a.dataPointer, Word.ofInt value⟩) ∨
      Assigns name c (a.feedAll [(number, text)]) calls := by
  constructor
  · rintro (⟨hline, hb, hc⟩ | h)
    · exact .inl ⟨_, _, hline, hb, hc⟩
    · exact .inr h
  · rintro (⟨_, _, hline, hb, hc⟩ | h)
    · exact .here hline hb hc
    · exact .later h

/-- The constants after lines, of which some may be refused. -/
theorem get?_constant_feedAll_iff :
    (a.feedAll calls).symbols.constants.get? name = some c ↔
      a.symbols.constants.get? name = some c ∨ Assigns name c a calls := by
  induction calls generalizing a with
  | nil => exact ⟨.inl, fun h => h.resolve_right nofun⟩
  | cons call calls ih =>
    rw [assigns_cons_iff, ← or_assoc, ← get?_constant_feedAll_singleton]
    exact ih

/-- Lines that do not assign a name leave its constant as it is. -/
theorem get?_constant_feedAll (h : ∀ c, ¬Assigns name c a calls) :
    (a.feedAll calls).symbols.constants.get? name = a.symbols.constants.get? name :=
  Option.ext fun c => get?_constant_feedAll_iff.trans (or_iff_left (h c))

/-- A label stays bound. -/
theorem get?_label_feedAll {x : Address} (h : a.symbols.labels.get? name = some x)
    (calls : List (Nat × String)) : (a.feedAll calls).symbols.labels.get? name = some x :=
  feedAll_invariant (P := fun b => b.symbols.labels.get? name = some x) calls h
    fun _ _ _ hx hs => hs.get?_label hx

/-- A name gets a constant once, and the names of registers do not get any. -/
theorem Assigns.fresh (h : Assigns name c a calls) :
    Register.ofName? name = none ∧ a.symbols.constants.get? name = none := by
  induction h with
  | here hline hb _ =>
    obtain ⟨_, hline', hfeeds⟩ := feed_eq_ok_iff.1 (Except.mapError_eq_ok_iff.1 hb)
    obtain rfl := Except.ok.inj (hline.symm.trans hline')
    obtain _ | _ | ⟨_ | _ | ⟨_, _, _, hr, hnone⟩, -⟩ := hfeeds
    exact ⟨hr, hnone⟩
  | @later a call _ _ ih =>
    -- A constant from before would still be there after one more line.
    refine ⟨ih.1, Option.eq_none_iff_forall_ne_some.2 fun c hc => ?_⟩
    exact nomatch ih.2.symm.trans (get?_constant_feedAll_iff.2 (.inl hc))

/-! ## Operands -/

/-- An operand keeps its value, unless it is a name that a line assigns. -/
theorem resolve_feedAll {o : Operand} {v : Value} (h : a.symbols.resolve o = .ok v)
    (hnot : ∀ name c, o = .symbol name → ¬Assigns name c a calls) :
    (a.feedAll calls).symbols.resolve o = .ok v := by
  cases o with
  | number n => exact h
  | symbol name =>
    -- The register and the constant are as before, and if there is a label, so is it.
    rw [SymbolTable.resolve, SymbolTable.resolveName] at h ⊢
    rw [get?_constant_feedAll (hnot name · rfl)]
    cases hx : a.symbols.labels.get? name with
    | some x =>
      rw [get?_label_feedAll hx]
      rwa [hx] at h
    | none =>
      rw [hx] at h
      split at h
      · exact h
      split at h
      · exact h
      · cases h
  | addressOf name =>
    rw [SymbolTable.resolve] at h ⊢
    split at h
    · next c hc =>
      rw [get?_constant_feedAll_iff.2 (.inl hc)]
      exact h
    · cases h

/-- A name that a line assigns stood for a label before, if for anything, and stands
    for the constant afterwards. -/
theorem Assigns.resolveName (h : Assigns name c a calls) {v : Value}
    (hv : a.symbols.resolveName name = .ok v) :
    (∃ x, a.symbols.labels.get? name = some x ∧ v = .word x) ∧
      (a.feedAll calls).symbols.resolveName name = .ok (.word c.value) := by
  obtain ⟨hr, hnone⟩ := h.fresh
  constructor
  · simp only [SymbolTable.resolveName, hr, hnone] at hv
    split at hv
    · next x hx => exact ⟨x, hx, (Except.ok.inj hv).symm⟩
    · cases hv
  · simp only [SymbolTable.resolveName, hr, get?_constant_feedAll_iff.2 (.inr h)]

theorem forall₂_resolve_feedAll {os : List Operand} {vs : List Value}
    (h : List.Forall₂ (fun o v => a.symbols.resolve o = .ok v) os vs)
    (hnot : ∀ name c, .symbol name ∈ os → ¬Assigns name c a calls) :
    List.Forall₂ (fun o v => (a.feedAll calls).symbols.resolve o = .ok v) os vs := by
  induction h with
  | nil => exact .nil
  | cons ho _ ih =>
    refine .cons (resolve_feedAll ho fun name c heq => ?_) (ih fun name c hmem => ?_)
    · exact hnot name c (heq ▸ List.mem_cons_self)
    · exact hnot name c (List.mem_cons_of_mem _ hmem)

/-- A statement that stands in a text twice is the same instruction again, unless a
    name in it has been assigned in between. -/
theorem Step.same_statement {mnemonic : String} {operands : List Operand} {a' b' : Assembler}
    (ha : a.Step (.statement mnemonic operands) a')
    (hb : (a.feedAll calls).Step (.statement mnemonic operands) b')
    (hnot : ∀ name c, .symbol name ∈ operands → ¬Assigns name c a calls) :
    ∃ i, a' = { a with code := a.code.push i } ∧
      b' = { a.feedAll calls with code := (a.feedAll calls).code.push i } := by
  obtain _ | _ | _ | ⟨-, hvalues, hi, -⟩ := ha
  obtain _ | _ | _ | ⟨-, hvalues', hi', -⟩ := hb
  have hmapM := Except.mapM_eq_ok_iff.2 (forall₂_resolve_feedAll hvalues hnot)
  obtain rfl := Except.ok.inj (hmapM.symm.trans (Except.mapM_eq_ok_iff.2 hvalues'))
  obtain rfl := Except.ok.inj (hi.symm.trans hi')
  exact ⟨_, rfl, rfl⟩

end Assembler

open Assembler in
/-- Whatever lines follow, of which some may be refused: labels and constants stay
    bound, and an operand keeps its value, unless it is the name of a label and one of
    the lines assigns a constant to it. From then on it stands for the constant, in
    place of the address of the label. So a statement that is accepted before and after
    these lines is the same instruction, unless a name in it has been assigned. -/
theorem names_last (a : Assembler) (calls : List (Nat × String)) :
    let b := a.feedAll calls
    (∀ name x, a.symbols.labels.get? name = some x → b.symbols.labels.get? name = some x) ∧
      (∀ name c, b.symbols.constants.get? name = some c ↔
        a.symbols.constants.get? name = some c ∨ Assigns name c a calls) ∧
      (∀ o v, a.symbols.resolve o = .ok v →
        (∀ name c, o = .symbol name → ¬Assigns name c a calls) → b.symbols.resolve o = .ok v) ∧
      (∀ name c v, Assigns name c a calls → a.symbols.resolve (.symbol name) = .ok v →
        (∃ x, a.symbols.labels.get? name = some x ∧ v = .word x) ∧
          b.symbols.resolve (.symbol name) = .ok (.word c.value)) ∧
      ∀ mnemonic operands a' b', a.Step (.statement mnemonic operands) a' →
        b.Step (.statement mnemonic operands) b' →
        (∀ name c, .symbol name ∈ operands → ¬Assigns name c a calls) →
        ∃ i, a' = { a with code := a.code.push i } ∧ b' = { b with code := b.code.push i } :=
  ⟨fun _ _ h => get?_label_feedAll h calls, fun _ _ => get?_constant_feedAll_iff,
    fun _ _ => resolve_feedAll, fun _ _ _ h hv => h.resolveName hv,
    fun _ _ _ _ => Step.same_statement⟩

/-- A constant of another name leaves the label as it is. -/
theorem names_last_sample :
    let a := (Assembler.initial Source.sampleLayout).feedAll [(1, ".f")]
    let b := a.feedAll [(2, ".f"), (3, ".data"), (4, "x = 5"), (5, "x = 6")]
    a.symbols.resolve (.symbol "f") = .ok (.word 8) ∧
      b.symbols.resolve (.symbol "f") = .ok (.word 8) ∧
      b.symbols.resolve (.symbol "x") = .ok (.word 5) := by
  intro a b
  obtain ⟨-, hconstants, hresolve, -⟩ :=
    names_last a [(2, ".f"), (3, ".data"), (4, "x = 5"), (5, "x = 6")]
  have ha : a.symbols.resolve (.symbol "f") = .ok (.word 8) := by decide +kernel
  refine ⟨ha, hresolve _ _ ha fun name c heq h => ?_, by decide +kernel⟩
  obtain rfl := Operand.symbol.inj heq
  have hnone : b.symbols.constants.get? "f" = none := by decide +kernel
  exact nomatch hnone.symm.trans ((hconstants "f" c).2 (.inr h))

/-- A name can be that of a label and of a constant, and another word after it has
    been assigned. -/
theorem label_shadowed_by_constant :
    let a := (Assembler.initial Source.sampleLayout).feedAll [(1, ".f")]
    let b := a.feedAll [(2, "MOV EAX, f"), (3, ".data"), (4, "f = 5"), (5, ".start")]
    a.symbols.resolve (.symbol "f") = .ok (.word 8) ∧
      b.symbols.resolve (.symbol "f") = .ok (.word 5) ∧
      b.symbols.labels.get? "f" = some 8 ∧ b.symbols.constants.get? "f" = some ⟨40, 5⟩ ∧
      (b.feedAll [(6, "MOV EAX, f")]).code = #[.movImm .eax 8, .movImm .eax 5] := by
  decide +kernel

end Machine32
