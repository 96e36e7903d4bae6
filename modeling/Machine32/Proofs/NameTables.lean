import Mathlib.Data.List.Induction
import Mathlib.Data.List.Nodup
import Machine32.NameTable

/-!
# Bindings of a table

The bindings of a table are what its lookups find (`mem_entries_iff`), and a
table made of bindings with different names has these bindings and no others, in
the order of the names (`perm_ofList`).
-/

namespace Machine32.NameTable

variable {α : Type} {t : NameTable α}

theorem get?_insert_self (t : NameTable α) (name : String) (value : α) :
    (t.insert name value).get? name = some value := by
  rw [get?_insert, if_pos rfl]

theorem get?_insert_of_ne {other name : String} (h : other ≠ name) (value : α) :
    (t.insert name value).get? other = t.get? other := by
  rw [get?_insert, if_neg h]

/-- A name is not found if no entry has it. -/
theorem get?_eq_none_iff {name : String} : t.get? name = none ↔ ∀ e ∈ t.entries, e.1 ≠ name := by
  simp only [get?, List.lookup_eq_none_iff, bne_iff_ne, ne_comm]

/-- A table has one binding for a name. -/
theorem mem_entries_iff {name : String} {value : α} :
    (name, value) ∈ t.entries ↔ t.get? name = some value := by
  obtain ⟨es, hes⟩ := t
  simp only [get?]
  induction es with
  | nil => simp
  | cons p es ih =>
    obtain ⟨hp, hes⟩ := List.pairwise_cons.1 hes
    by_cases h : name = p.1
    · subst h
      have hnot : (p.1, value) ∉ es := fun hmem => String.lt_irrefl _ (hp (p.1, value) hmem)
      rw [List.lookup_cons_self, List.mem_cons]
      constructor
      · rintro (h | h)
        · rw [← h]
        · exact absurd h hnot
      · intro h
        rw [← Option.some.inj h]
        exact .inl rfl
    · rw [lookup_cons_of_ne h, ← ih hes, List.mem_cons]
      exact or_iff_right fun heq => h (congrArg Prod.fst heq)

/-- No name has two entries. -/
theorem nodup_names : (t.entries.map (·.1)).Nodup :=
  List.pairwise_map.2 (t.ordered.imp fun h => Std.ne_of_lt h)

/-- A new name adds a binding. -/
theorem perm_insert {name : String} {value : α} (h : t.get? name = none) :
    (t.insert name value).entries.Perm ((name, value) :: t.entries) := by
  rw [get?_eq_none_iff] at h
  obtain ⟨es, hes⟩ := t
  simp only [insert] at h ⊢
  clear hes
  induction es with
  | nil => exact .refl _
  | cons p es ih =>
    obtain ⟨k, v⟩ := p
    have hk : name ≠ k := (h _ List.mem_cons_self).symm
    have hperm := ih fun e he => h e (List.mem_cons_of_mem _ he)
    rw [insertEntry, if_neg hk]
    split
    · exact .refl _
    · exact (hperm.cons _).trans (.swap ..)

theorem ofList_concat (es : List (String × α)) (name : String) (value : α) :
    ofList (es ++ [(name, value)]) = (ofList es).insert name value :=
  List.foldl_append

/-- A table of bindings with different names has these bindings. -/
theorem perm_ofList {es : List (String × α)} (h : (es.map (·.1)).Nodup) :
    (ofList es).entries.Perm es := by
  induction es using List.reverseRecOn with
  | nil => exact .refl _
  | append_singleton es e ih =>
    obtain ⟨name, value⟩ := e
    rw [List.map_append, List.map_singleton, List.nodup_append_comm] at h
    obtain ⟨hname, hes⟩ := List.nodup_cons.1 h
    have hperm := ih hes
    rw [ofList_concat]
    refine (perm_insert (get?_eq_none_iff.2 fun e he heq => hname ?_)).trans ?_
    · exact List.mem_map.2 ⟨e, hperm.mem_iff.1 he, heq⟩
    · exact (hperm.cons _).trans (List.perm_append_singleton _ _).symm

end Machine32.NameTable
