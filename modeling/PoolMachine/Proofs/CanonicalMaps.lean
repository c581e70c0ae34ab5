import Mathlib.Data.Finset.Card
import PoolMachine.Listing
import PoolMachine.Proofs.ByteOrder
import PoolMachine.Store

/-!
# Maps are canonical

**Theorem (`NameMap.edited_canonical`).** Take any sequence of insertions and collections, from the
empty map. The map that it leads to is iterated in the byte order of the names, binds each name to
what was written last, and has as many bindings as names were written. Two sequences that lead to
the same bindings lead to the same map, and so to the same text of a store and to the same listing
of a program.

* *Histories* (`Edit.written`). A collection starts anew, so only the pairs written since then
  count. The map is the one of these pairs (`edited_eq_ofList`), and the rest is about `ofList`.
* *Extensionality* (`ext_get?`). The bindings of a map are its entries (`mem_toList_iff`), and
  there is one way to put them in order.
-/

namespace PoolMachine

namespace NameMap

variable {α : Type}

/-! ## Bindings and entries -/

theorem nodup_names (m : NameMap α) : m.names.Nodup := by
  refine List.pairwise_map.mpr (m.sorted.imp fun hlt heq => ?_)
  rw [heq] at hlt
  exact Std.lt_irrefl hlt

theorem length_names (m : NameMap α) : m.names.length = m.size := List.length_map _

theorem mem_toList_iff {m : NameMap α} {name : String} {a : α} :
    (name, a) ∈ m.toList ↔ m.get? name = some a := by
  rw [toList, get?, List.lookup_eq_some_iff]
  constructor
  · intro hmem
    obtain ⟨front, back, heq⟩ := List.append_of_mem hmem
    refine ⟨front, back, heq, fun p hp => ?_⟩
    -- What stands before the entry has a smaller name.
    have hsorted := m.sorted
    rw [heq] at hsorted
    have hlt := (List.pairwise_append.mp hsorted).2.2 p hp _ List.mem_cons_self
    simpa using (Std.ne_of_lt hlt).symm
  · intro h
    obtain ⟨front, back, heq, -⟩ := h
    simp [heq]

/-- **A map is determined by its bindings.** -/
theorem ext_get? {m m' : NameMap α} (h : ∀ name, m.get? name = m'.get? name) : m = m' := by
  have hnodup (m : NameMap α) : m.entries.Nodup := .of_map Prod.fst m.nodup_names
  have hperm : m.entries.Perm m'.entries := by
    refine (List.perm_ext_iff_of_nodup (hnodup m) (hnodup m')).mpr fun e => ?_
    show e ∈ m.toList ↔ e ∈ m'.toList
    rw [mem_toList_iff, mem_toList_iff, h]
  have hentries : m.entries = m'.entries :=
    hperm.eq_of_pairwise (fun _ _ _ _ hab hba => absurd hab (Std.not_gt_of_lt hba))
      m.sorted m'.sorted
  cases m
  cases m'
  congr

theorem mem_names_insert_iff {m : NameMap α} {name other : String} {a : α} :
    other ∈ (m.insert name a).names ↔ other = name ∨ other ∈ m.names := by
  simp only [mem_names_iff, get?_insert]
  by_cases h : other = name <;> simp [h]

theorem size_le_card {m : NameMap α} {xs : List String} (h : ∀ x ∈ m.names, x ∈ xs) :
    m.size ≤ xs.toFinset.card := by
  rw [← length_names, ← List.toFinset_card_of_nodup m.nodup_names]
  refine Finset.card_le_card fun x hx => ?_
  rw [List.mem_toFinset] at hx ⊢
  exact h x hx

theorem eq_empty_of_size_eq_zero {m : NameMap α} (h : m.size = 0) : m = empty := by
  cases m
  congr
  exact List.length_eq_zero_iff.mp h

/-! ## The last write of a name -/

/-- Of the pairs written, the last with the name has the value. -/
def LastWrite (writes : List (String × α)) (name : String) (a : α) : Prop :=
  ∃ front back, writes = front ++ (name, a) :: back ∧ ∀ p ∈ back, p.1 ≠ name

/-- The map shows the last write of each name, in the byte order of the names. -/
structure Keeps (m : NameMap α) (writes : List (String × α)) : Prop where
  increasing : m.toList.Pairwise fun d e => Text.bytes d.1 < Text.bytes e.1
  mem_toList_iff : ∀ name a, (name, a) ∈ m.toList ↔ m.get? name = some a
  get?_eq_some_iff : ∀ name a, m.get? name = some a ↔ LastWrite writes name a
  get?_eq_none_iff : ∀ name, m.get? name = none ↔ ∀ p ∈ writes, p.1 ≠ name
  size_eq : m.size = (writes.map Prod.fst).toFinset.card

section

variable {pairs : List (String × α)} {name : String}

theorem get?_ofList_eq_some_iff {a : α} :
    (ofList pairs).get? name = some a ↔ LastWrite pairs name a := by
  rw [get?_ofList, List.lookup_eq_some_iff]
  constructor
  · intro ⟨front, back, heq, hfront⟩
    refine ⟨back.reverse, front.reverse, ?_, fun p hp => ?_⟩
    · rw [← pairs.reverse_reverse, heq]
      simp
    · exact (bne_iff_ne.mp (hfront p (List.mem_reverse.mp hp))).symm
  · intro ⟨front, back, heq, hback⟩
    refine ⟨back.reverse, front.reverse, by simp [heq], fun p hp => ?_⟩
    exact bne_iff_ne.mpr (hback p (List.mem_reverse.mp hp)).symm

theorem get?_ofList_eq_none_iff :
    (ofList pairs).get? name = none ↔ ∀ p ∈ pairs, p.1 ≠ name := by
  simp only [get?_ofList, List.lookup_eq_none_iff, List.mem_reverse, bne_iff_ne, ne_comm]

theorem mem_names_ofList_iff : name ∈ (ofList pairs).names ↔ name ∈ pairs.map Prod.fst := by
  rw [mem_names_iff, ← Option.ne_none_iff_exists', ne_eq, get?_ofList_eq_none_iff, List.mem_map]
  simp only [not_forall, not_not, exists_prop]

theorem size_ofList (pairs : List (String × α)) :
    (ofList pairs).size = (pairs.map Prod.fst).toFinset.card := by
  rw [← length_names, ← List.toFinset_card_of_nodup (nodup_names _)]
  congr 1
  ext name
  rw [List.mem_toFinset, List.mem_toFinset, mem_names_ofList_iff]

end

/-- **The map of a list keeps the last pair of each name.** -/
theorem keeps_ofList (pairs : List (String × α)) : (ofList pairs).Keeps pairs where
  increasing := (ofList pairs).sorted.imp Text.bytes_lt_bytes_iff.mpr
  mem_toList_iff _ _ := mem_toList_iff
  get?_eq_some_iff _ _ := get?_ofList_eq_some_iff
  get?_eq_none_iff _ := get?_ofList_eq_none_iff
  size_eq := size_ofList pairs

/-! ## Sequences of operations -/

/-- An operation that changes a map. -/
inductive Edit (α : Type)
  /-- Binds a name. -/
  | insert (name : String) (a : α)
  /-- Replaces the map by that of a list. -/
  | collect (pairs : List (String × α))

namespace Edit

/-- The map after an operation. -/
def apply (m : NameMap α) : Edit α → NameMap α
  | insert name a => m.insert name a
  | collect pairs => ofList pairs

/-- The pairs that count after an operation. -/
def record (writes : List (String × α)) : Edit α → List (String × α)
  | insert name a => writes ++ [(name, a)]
  | collect pairs => pairs

/-- The pairs written since the last collection began, in order. -/
def written (es : List (Edit α)) : List (String × α) := es.foldl record []

end Edit

/-- The map that operations lead to, from the empty one. -/
def edited (es : List (Edit α)) : NameMap α := es.foldl Edit.apply empty

theorem edited_append_singleton (es : List (Edit α)) (e : Edit α) :
    edited (es ++ [e]) = e.apply (edited es) := by
  simp [edited]

theorem written_append_singleton (es : List (Edit α)) (e : Edit α) :
    Edit.written (es ++ [e]) = e.record (Edit.written es) := by
  simp [Edit.written]

theorem ofList_append_singleton (pairs : List (String × α)) (p : String × α) :
    ofList (pairs ++ [p]) = (ofList pairs).insert p.1 p.2 := by
  simp [ofList]

/-- **Only the pairs since the last collection count**, and they might as well be a list. -/
theorem edited_eq_ofList (es : List (Edit α)) : edited es = ofList (Edit.written es) := by
  induction es using List.reverseRecOn with
  | nil => rfl
  | append_singleton es e ih =>
    rw [edited_append_singleton, written_append_singleton, ih]
    cases e with
    | insert name a => exact (ofList_append_singleton _ (name, a)).symm
    | collect pairs => rfl

theorem written_map_insert (pairs : List (String × α)) :
    Edit.written (pairs.map fun p => .insert p.1 p.2) = pairs := by
  induction pairs using List.reverseRecOn with
  | nil => rfl
  | append_singleton pairs p ih =>
    rw [List.map_append, List.map_singleton, written_append_singleton, ih]
    rfl

/-- **Stores and programs are canonical maps.** -/
theorem edited_canonical :
    -- A map keeps the last write of each name, and an insertion returns what was there before.
    (∀ {α : Type} (es : List (Edit α)), (edited es).Keeps (Edit.written es) ∧
      ∀ name a, ((edited es).exchange name a).2 = edited (es ++ [.insert name a]) ∧
        (∀ b, ((edited es).exchange name a).1 = some b ↔ LastWrite (Edit.written es) name b) ∧
        (((edited es).exchange name a).1 = none ↔ ∀ p ∈ Edit.written es, p.1 ≠ name)) ∧
    -- A collection inserts the pairs one by one into the empty map.
    (∀ {α : Type} (es : List (Edit α)) (pairs : List (String × α)),
      edited (es ++ [.collect pairs]) = edited (pairs.map fun p => .insert p.1 p.2)) ∧
    -- The bindings determine a store and its text,
    (∀ es es' : List (Edit Word), (∀ name, (edited es).get? name = (edited es').get? name) →
      edited es = edited es' ∧ Store.text (edited es) = Store.text (edited es')) ∧
    -- and a program and its listing.
    (∀ es es' : List (Edit Code), (∀ name, (edited es).get? name = (edited es').get? name) →
      edited es = edited es' ∧ Program.listing (edited es) = Program.listing (edited es')) := by
  refine ⟨fun es => ?_, fun es pairs => ?_, fun es es' h => ?_, fun es es' h => ?_⟩
  · rw [edited_eq_ofList]
    refine ⟨keeps_ofList _, fun name a => ⟨?_, fun b => get?_ofList_eq_some_iff,
      get?_ofList_eq_none_iff⟩⟩
    rw [edited_append_singleton, edited_eq_ofList]
    rfl
  · rw [edited_append_singleton, edited_eq_ofList (pairs.map _), written_map_insert]
    rfl
  · have heq := ext_get? h
    exact ⟨heq, congrArg _ heq⟩
  · have heq := ext_get? h
    exact ⟨heq, congrArg _ heq⟩

/-- Writes a name, starts anew with two others, one of them twice, and writes the first again. -/
def restarted : List (Edit Word) :=
  [.insert "z" 1, .collect [("é", 2), ("zz", 3), ("é", 4)], .insert "z" 5]

/-- Writes the names from the last to the first. -/
def backwards : List (Edit Word) := [.insert "é" 4, .insert "zz" 3, .insert "z" 5]

/-- The order of writing is lost, and what was written before the collection too. -/
theorem edited_restarted_eq_backwards :
    edited restarted = edited backwards ∧ Store.text (edited backwards) = "{z: 5, zz: 3, é: 4}" ∧
      (edited restarted).size = 3 ∧ (edited restarted).get? "é" = some 4 ∧
      ((edited restarted).exchange "z" 0).1 = some 5 := by
  obtain ⟨hkeeps, -, hstore, -⟩ := edited_canonical
  have hget (name : String) : (edited restarted).get? name = (edited backwards).get? name := by
    simp only [edited, restarted, backwards, List.foldl_cons, List.foldl_nil, Edit.apply, ofList,
      get?_insert, get?_empty]
    split_ifs <;> simp_all
  refine ⟨(hstore restarted backwards hget).1, rfl, ?_, ?_, ?_⟩
  · rw [(hkeeps restarted).1.size_eq]
    decide
  · refine ((hkeeps restarted).1.get?_eq_some_iff "é" 4).mpr ⟨[("é", 2), ("zz", 3)], [("z", 5)], ?_⟩
    exact ⟨rfl, by decide⟩
  · refine (((hkeeps restarted).2 "z" 0).2.1 5).mpr ⟨[("é", 2), ("zz", 3), ("é", 4)], [], ?_⟩
    exact ⟨rfl, by decide⟩

end NameMap

end PoolMachine
