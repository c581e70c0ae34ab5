/-!
# Maps from names

A finite map from names to values, kept as a list of entries in strictly increasing order of
names. Names are ordered code point by code point, which is also the order of their UTF-8 bytes.
Since the order fixes the list, two maps with the same bindings are equal.

* **`get?`**: the value bound to a name.
* **`insert`**: binds a name, replacing its earlier value.
* **`ofList`**: binds the pairs of a list one after the other, so that the last binding of a name
  counts.
-/

namespace PoolMachine

/-- A finite map from names. -/
structure NameMap (α : Type) where
  /-- The bindings, in the order of their names. -/
  entries : List (String × α)
  /-- The names increase strictly, so each occurs once. -/
  sorted : entries.Pairwise fun a b => a.1 < b.1
deriving DecidableEq

namespace NameMap

variable {α : Type}

/-! ## Binding a name in a list of entries -/

/-- Puts a binding at its place in a sorted list, in place of an earlier one of the same name. -/
def bind (name : String) (a : α) : List (String × α) → List (String × α)
  | [] => [(name, a)]
  | e :: es =>
    if name < e.1 then (name, a) :: e :: es
    else if name = e.1 then (name, a) :: es
    else e :: bind name a es

/-- A new list of entries holds the new binding and old ones only. -/
theorem mem_bind {name : String} {a : α} {e : String × α} {es : List (String × α)}
    (h : e ∈ bind name a es) : e = (name, a) ∨ e ∈ es := by
  induction es with
  | nil => simpa [bind] using h
  | cons d ds ih =>
    rw [bind] at h
    split at h
    · simpa using h
    · split at h
      · rcases List.mem_cons.mp h with h | h
        · exact .inl h
        · exact .inr (List.mem_cons_of_mem _ h)
      · rcases List.mem_cons.mp h with h | h
        · exact .inr (h ▸ List.mem_cons_self)
        · exact (ih h).imp id (List.mem_cons_of_mem _)

/-- Binding keeps the order. -/
theorem pairwise_bind (name : String) (a : α) {es : List (String × α)}
    (h : es.Pairwise fun a b => a.1 < b.1) : (bind name a es).Pairwise fun a b => a.1 < b.1 := by
  induction es with
  | nil => simp [bind]
  | cons d ds ih =>
    have hd := (List.pairwise_cons.mp h).1
    have hds := (List.pairwise_cons.mp h).2
    rw [bind]
    split
    case isTrue hlt =>
      refine List.pairwise_cons.mpr ⟨fun e he => ?_, h⟩
      rcases List.mem_cons.mp he with rfl | he
      · exact hlt
      · exact String.lt_trans hlt (hd e he)
    case isFalse hge =>
      split
      case isTrue heq => exact List.pairwise_cons.mpr ⟨fun e he => heq ▸ hd e he, hds⟩
      case isFalse hne =>
        refine List.pairwise_cons.mpr ⟨fun e he => ?_, ih hds⟩
        rcases mem_bind he with rfl | he
        · exact Std.lt_of_le_of_ne (Std.not_lt.mp hge) (Ne.symm hne)
        · exact hd e he

/-! ## The operations -/

/-- The map without bindings. -/
def empty : NameMap α := ⟨[], .nil⟩

instance : Inhabited (NameMap α) := ⟨empty⟩

/-- The value bound to a name. -/
def get? (m : NameMap α) (name : String) : Option α := m.entries.lookup name

/-- Binds a name to a value, which replaces an earlier one. -/
def insert (m : NameMap α) (name : String) (a : α) : NameMap α :=
  ⟨bind name a m.entries, pairwise_bind name a m.sorted⟩

/-- Binds a name, and returns the value that it had before. -/
def exchange (m : NameMap α) (name : String) (a : α) : Option α × NameMap α :=
  (m.get? name, m.insert name a)

/-- The bindings in the order of their names. -/
def toList (m : NameMap α) : List (String × α) := m.entries

/-- Binds the pairs of a list one after the other. -/
def ofList (pairs : List (String × α)) : NameMap α :=
  pairs.foldl (fun m p => m.insert p.1 p.2) empty

/-- The bound names in order. -/
def names (m : NameMap α) : List String := m.entries.map (·.1)

/-- The number of bindings. -/
def size (m : NameMap α) : Nat := m.entries.length

/-- Whether there are no bindings. -/
def isEmpty (m : NameMap α) : Bool := m.entries.isEmpty

/-! ## Lookup -/

@[simp] theorem get?_empty (name : String) : (empty : NameMap α).get? name = none := rfl

theorem lookup_cons (name : String) (e : String × α) (es : List (String × α)) :
    (e :: es).lookup name = if name = e.1 then some e.2 else es.lookup name := by
  obtain ⟨other, a⟩ := e
  rw [List.lookup_cons]
  by_cases h : name = other
  · simp [h]
  · rw [beq_false_of_ne h, if_neg h]

theorem lookup_bind (name other : String) (a : α) (es : List (String × α)) :
    (bind name a es).lookup other = if other = name then some a else es.lookup other := by
  induction es with
  | nil => simp [bind, lookup_cons]
  | cons e es ih =>
    rw [bind]
    split
    · simp only [lookup_cons]
    · split
      · simp only [lookup_cons]
        split <;> simp_all
      · simp only [lookup_cons, ih]
        split <;> split <;> simp_all

/-- An insertion is seen under its name, and changes no other. -/
theorem get?_insert (m : NameMap α) (name other : String) (a : α) :
    (m.insert name a).get? other = if other = name then some a else m.get? other :=
  lookup_bind name other a m.entries

theorem mem_names_iff {m : NameMap α} {name : String} :
    name ∈ m.names ↔ ∃ a, m.get? name = some a := by
  rw [← Option.isSome_iff_exists, get?, List.lookup_isSome_iff, names, List.mem_map]
  simp only [beq_iff_eq, eq_comm (a := name)]

/-! ## Maps of lists -/

theorem get?_foldl_insert (pairs : List (String × α)) (m : NameMap α) (name : String) :
    (pairs.foldl (fun m p => m.insert p.1 p.2) m).get? name =
      (pairs.reverse.lookup name).or (m.get? name) := by
  induction pairs generalizing m with
  | nil => rfl
  | cons p ps ih =>
    rw [List.foldl_cons, ih, get?_insert, List.reverse_cons, List.lookup_append, lookup_cons]
    by_cases h : name = p.1
    · rw [if_pos h, if_pos h, Option.or_assoc]
      rfl
    · rw [if_neg h, if_neg h, Option.or_assoc]
      rfl

/-- The last binding of a name counts. -/
theorem get?_ofList (pairs : List (String × α)) (name : String) :
    (ofList pairs).get? name = pairs.reverse.lookup name := by
  rw [ofList, get?_foldl_insert, get?_empty, Option.or_none]

theorem mem_of_mem_foldl_insert {pairs : List (String × α)} {m : NameMap α} {e : String × α}
    (h : e ∈ (pairs.foldl (fun m p => m.insert p.1 p.2) m).toList) : e ∈ pairs ∨ e ∈ m.toList := by
  induction pairs generalizing m with
  | nil => exact .inr h
  | cons p ps ih =>
    rcases ih h with hps | hm
    · exact .inl (List.mem_cons_of_mem p hps)
    · rcases mem_bind hm with rfl | hm
      · exact .inl List.mem_cons_self
      · exact .inr hm

/-- A map of a list has only bindings of the list. -/
theorem mem_of_mem_ofList {pairs : List (String × α)} {e : String × α}
    (h : e ∈ (ofList pairs).toList) : e ∈ pairs :=
  (mem_of_mem_foldl_insert h).resolve_right List.not_mem_nil

end NameMap

end PoolMachine
