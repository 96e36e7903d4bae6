/-!
# Tables by name

A finite map from names to values, as its entries in the order of the names
(by code points), so that equal maps are equal tables. Listings and reports
show names in this order.

* `insert` binds a name, in place of an earlier binding;
* `get?_insert` says what a lookup finds afterwards;
* `ext_get?`: tables that answer every lookup alike are equal.
-/

namespace Machine32

/-- A map from names to values of type `α`. -/
structure NameTable (α : Type) where
  /-- The bindings. -/
  entries : List (String × α)
  /-- The names are in increasing order, without repetition. -/
  ordered : entries.Pairwise (·.1 < ·.1)
  deriving DecidableEq

namespace NameTable

variable {α : Type}

/-- The bindings `es` in order, with `name` bound to `value`. -/
def insertEntry (name : String) (value : α) : List (String × α) → List (String × α)
  | [] => [(name, value)]
  | (n, v) :: es =>
    if name < n then (name, value) :: (n, v) :: es
    else if name = n then (name, value) :: es
    else (n, v) :: insertEntry name value es

theorem mem_insertEntry {name : String} {value : α} {es : List (String × α)}
    {e : String × α} (h : e ∈ insertEntry name value es) : e = (name, value) ∨ e ∈ es := by
  induction es with
  | nil => simpa [insertEntry] using h
  | cons p es ih =>
    simp only [insertEntry] at h
    split at h
    · simpa using h
    split at h
    · simp only [List.mem_cons] at h ⊢
      exact h.imp_right .inr
    · simp only [List.mem_cons] at h ⊢
      rcases h with h | h
      · exact .inr (.inl h)
      · exact (ih h).imp_right .inr

/-- An entry comes in where its name belongs. -/
theorem ordered_insertEntry (name : String) (value : α) {es : List (String × α)}
    (h : es.Pairwise (·.1 < ·.1)) : (insertEntry name value es).Pairwise (·.1 < ·.1) := by
  induction es with
  | nil => simp [insertEntry]
  | cons p es ih =>
    obtain ⟨hp, hes⟩ := List.pairwise_cons.mp h
    simp only [insertEntry]
    split
    · next hlt =>
      refine List.pairwise_cons.mpr ⟨fun e he => ?_, h⟩
      rcases List.mem_cons.mp he with rfl | he
      · exact hlt
      · exact String.lt_trans hlt (hp e he)
    split
    · next heq =>
      exact List.pairwise_cons.mpr ⟨fun e he => heq ▸ hp e he, hes⟩
    · next hlt hne =>
      refine List.pairwise_cons.mpr ⟨fun e he => ?_, ih hes⟩
      rcases mem_insertEntry he with rfl | he
      · exact Std.lt_of_le_of_ne (Std.not_lt.mp hlt) (Ne.symm hne)
      · exact hp e he

/-- The table without bindings. -/
def empty : NameTable α :=
  ⟨[], .nil⟩

instance : EmptyCollection (NameTable α) :=
  ⟨empty⟩

instance : Inhabited (NameTable α) :=
  ⟨empty⟩

/-- The table `t` with `name` bound to `value`. -/
def insert (t : NameTable α) (name : String) (value : α) : NameTable α :=
  ⟨insertEntry name value t.entries, ordered_insertEntry name value t.ordered⟩

/-- The value bound to `name`. -/
def get? (t : NameTable α) (name : String) : Option α :=
  t.entries.lookup name

/-- Whether `name` is bound. -/
def contains (t : NameTable α) (name : String) : Bool :=
  (t.get? name).isSome

/-- The table with the given bindings, a later one replacing an earlier one of
    the same name. -/
def ofList (es : List (String × α)) : NameTable α :=
  es.foldl (fun t e => t.insert e.1 e.2) empty

@[simp] theorem get?_empty (name : String) : (empty : NameTable α).get? name = none := rfl

theorem lookup_cons_of_ne {n k : String} (h : n ≠ k) (v : α) (es : List (String × α)) :
    ((k, v) :: es).lookup n = es.lookup n := by
  rw [List.lookup_cons, beq_eq_false_iff_ne.mpr h]

/-- An entry is found under its name, and the others are found as before. -/
theorem get?_insert (t : NameTable α) (name : String) (value : α) (n : String) :
    (t.insert name value).get? n = if n = name then some value else t.get? n := by
  obtain ⟨es, hes⟩ := t
  simp only [get?, insert]
  clear hes
  induction es with
  | nil => by_cases h : n = name <;> simp [insertEntry, h, lookup_cons_of_ne]
  | cons p es ih =>
    obtain ⟨k, v⟩ := p
    simp only [insertEntry]
    -- The new binding goes in front of `k`, in place of it, or behind it.
    split
    · by_cases h : n = name <;> simp [h, lookup_cons_of_ne]
    split
    · next heq =>
      subst heq
      by_cases h : n = name <;> simp [h, lookup_cons_of_ne]
    · next hne =>
      by_cases h : n = k
      · subst h
        simp [Ne.symm hne]
      · rw [lookup_cons_of_ne h, lookup_cons_of_ne h, ih]

theorem lookup_eq_none {n : String} {es : List (String × α)} (h : ∀ e ∈ es, n < e.1) :
    es.lookup n = none := by
  induction es with
  | nil => rfl
  | cons p es ih =>
    have hne : n ≠ p.1 := fun heq => String.lt_irrefl n (heq ▸ h p List.mem_cons_self)
    rw [lookup_cons_of_ne hne]
    exact ih fun e he => h e (List.mem_cons_of_mem _ he)

/-- A table is determined by its lookups. -/
theorem ext_get? {t u : NameTable α} (h : ∀ n, t.get? n = u.get? n) : t = u := by
  obtain ⟨es, hes⟩ := t
  obtain ⟨fs, hfs⟩ := u
  simp only [get?] at h
  congr
  induction es generalizing fs with
  | nil =>
    cases fs with
    | nil => rfl
    | cons q fs =>
      obtain ⟨l, w⟩ := q
      simpa using h l
  | cons p es ih =>
    obtain ⟨k, v⟩ := p
    obtain ⟨hp, hes'⟩ := List.pairwise_cons.mp hes
    cases fs with
    | nil => simpa using h k
    | cons q fs =>
      obtain ⟨l, w⟩ := q
      obtain ⟨hq, hfs'⟩ := List.pairwise_cons.mp hfs
      -- The least name of either table is the least name of the other.
      have hkl : k = l := by
        rcases Std.lt_trichotomy k l with hlt | heq | hlt
        · have hnone : ((l, w) :: fs).lookup k = none := lookup_eq_none fun e he => by
            rcases List.mem_cons.mp he with rfl | he
            · exact hlt
            · exact String.lt_trans hlt (hq e he)
          simpa [hnone] using h k
        · exact heq
        · have hnone : ((k, v) :: es).lookup l = none := lookup_eq_none fun e he => by
            rcases List.mem_cons.mp he with rfl | he
            · exact hlt
            · exact String.lt_trans hlt (hp e he)
          simpa [hnone] using h l
      subst hkl
      have hvw : v = w := by simpa using h k
      subst hvw
      refine congrArg _ (ih hes' fs hfs' fun n => ?_)
      by_cases hn : n = k
      · subst hn
        rw [lookup_eq_none hp, lookup_eq_none hq]
      · simpa only [lookup_cons_of_ne hn] using h n

end NameTable

end Machine32
