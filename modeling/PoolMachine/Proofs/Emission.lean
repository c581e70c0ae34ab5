import PoolMachine.Assembly

/-!
# The code of a list of items

Each item of a body adds one slot to the code, and each literal also one entry to the pool of its
kind. Seen from the finished code:

* **`slot_ofItems`**: the slot of an item holds its opcode, or the number of literals of its kind
  before it.
* **`entry_ofItems`**: the number of literals of its kind before it is where a literal lies in its
  pool.
* **`exists_item_of_entry`**: nothing else lies in a pool.

All follow from what one item adds (`slots_emit`, `literals_emit`), since nothing is ever taken
away.
-/

namespace PoolMachine

/-! ## Literals of items -/

namespace Item

/-- The literal of an item. -/
def value? : Item → Option Value
  | instruction _ => none
  | integer n => some (.integer n)
  | boolean b => some (.boolean b)
  | string s => some (.string s)

@[simp] theorem value?_instruction (op : Opcode) : (instruction op).value? = none := rfl

/-- The item of a literal. -/
def ofValue : Value → Item
  | .integer n => integer n
  | .boolean b => boolean b
  | .string s => string s

@[simp] theorem value?_ofValue (v : Value) : (ofValue v).value? = some v := by
  cases v <;> rfl

theorem eq_ofValue {item : Item} {v : Value} (h : item.value? = some v) : item = ofValue v := by
  cases item <;> cases h <;> rfl

/-- The number of literals of a kind among items. -/
def count (items : List Item) (k : Kind) : Nat :=
  items.countP fun item => item.value?.any (·.kind = k)

theorem count_append (items items' : List Item) (k : Kind) :
    count (items ++ items') k = count items k + count items' k := List.countP_append

/-- The slot that an item adds, where the pools have given sizes. -/
def slot (size : Kind → Nat) : Item → Nat
  | instruction op => op.code
  | integer _ => size .integer
  | boolean _ => size .boolean
  | string _ => size .string

@[simp] theorem slot_ofValue (size : Kind → Nat) (v : Value) :
    (ofValue v).slot size = size v.kind := by
  cases v <;> rfl

end Item

/-! ## What one item adds -/

namespace Code

/-- The literals of a kind, in order. -/
def literals (code : Code) (k : Kind) : List Value := (code.pool k).toList.map (.ofLiteral k)

theorem length_literals (code : Code) (k : Kind) : (code.literals k).length = code.poolSize k := by
  simp [literals, poolSize]

theorem entry_eq_ok_iff {code : Code} {k : Kind} {index : Nat} {v : Value} :
    code.entry k index = .ok v ↔ (code.literals k)[index]? = some v := by
  rcases h : (code.pool k)[index]? with _ | a <;> simp [entry, literal, literals, h, Except.map]

/-- The places of a pool are those below its size. -/
theorem exists_entry_iff {code : Code} {k : Kind} {index : Nat} :
    (∃ v, code.entry k index = .ok v) ↔ index < code.poolSize k := by
  rw [← length_literals]
  constructor
  · intro ⟨v, hv⟩
    exact (List.getElem?_eq_some_iff.mp (entry_eq_ok_iff.mp hv)).1
  · intro hlt
    exact ⟨_, entry_eq_ok_iff.mpr (List.getElem?_eq_getElem hlt)⟩

theorem slots_emit (code : Code) (item : Item) :
    (code.emit item).slots = code.slots.push (item.slot code.poolSize) := by
  cases item <;> rfl

theorem literals_emit (code : Code) (item : Item) (k : Kind) :
    (code.emit item).literals k = code.literals k ++ item.value?.toList.filter (·.kind = k) := by
  cases item <;> cases k <;>
    simp [emit, literals, pool, Value.ofLiteral, Item.value?, Value.kind, pushSlot, pushInteger,
      pushString, pushBoolean]

/-! ## What a list of items adds -/

/-- The code of a list of items. -/
def ofItems (items : List Item) : Code := items.foldl emit {}

theorem literals_foldl_emit (items : List Item) (code : Code) (k : Kind) :
    (items.foldl emit code).literals k =
      code.literals k ++ (items.filterMap Item.value?).filter (·.kind = k) := by
  induction items generalizing code with
  | nil => simp
  | cons item items ih =>
    rw [List.foldl_cons, ih, literals_emit]
    rcases h : item.value? with _ | v
    · simp [h]
    · by_cases hk : v.kind = k <;> simp [h, hk]

theorem prefix_slots_foldl_emit (items : List Item) (code : Code) :
    code.slots.toList <+: (items.foldl emit code).slots.toList := by
  induction items generalizing code with
  | nil => exact List.prefix_rfl
  | cons item items ih =>
    refine .trans ?_ (ih (code.emit item))
    rw [slots_emit, Array.toList_push]
    exact List.prefix_append _ _

theorem length_foldl_emit (items : List Item) (code : Code) :
    (items.foldl emit code).length = code.length + items.length := by
  induction items generalizing code with
  | nil => rfl
  | cons item items ih =>
    rw [List.foldl_cons, ih, length, slots_emit, Array.size_push, List.length_cons, length]
    omega

theorem length_ofItems (items : List Item) : (ofItems items).length = items.length := by
  rw [ofItems, length_foldl_emit]
  exact Nat.zero_add _

theorem literals_ofItems (items : List Item) (k : Kind) :
    (ofItems items).literals k = (items.filterMap Item.value?).filter (·.kind = k) := by
  rw [ofItems, literals_foldl_emit]
  cases k <;> rfl

theorem poolSize_ofItems (items : List Item) (k : Kind) :
    (ofItems items).poolSize k = Item.count items k := by
  rw [← length_literals, literals_ofItems, ← List.countP_eq_length_filter, List.countP_filterMap]
  refine List.countP_congr fun item _ => ?_
  cases item.value? <;> simp

/-- **The slot of an item** in the finished code. -/
theorem slot_ofItems (before : List Item) (item : Item) (after : List Item) :
    (ofItems (before ++ item :: after)).slots[before.length]? =
      some (item.slot (Item.count before)) := by
  have hsize : (ofItems before).slots.size = before.length := length_ofItems before
  have hpool : (ofItems before).poolSize = Item.count before := funext (poolSize_ofItems before)
  have hslots : ((ofItems before).emit item).slots.toList[before.length]? =
      some (item.slot (Item.count before)) := by
    rw [slots_emit, hpool, Array.getElem?_toList, ← hsize, Array.getElem?_push_size]
  rw [← Array.getElem?_toList, ofItems, List.foldl_append, List.foldl_cons]
  obtain ⟨rest, hrest⟩ := prefix_slots_foldl_emit after ((ofItems before).emit item)
  rw [← hslots, ← List.getElem?_append_left (List.getElem?_eq_some_iff.mp hslots).1, hrest, ofItems]

/-- **The place of a literal** in its pool of the finished code. -/
theorem entry_ofItems (before : List Item) (v : Value) (after : List Item) :
    (ofItems (before ++ .ofValue v :: after)).entry v.kind (Item.count before v.kind) = .ok v := by
  have hcount : ((before.filterMap Item.value?).filter (·.kind = v.kind)).length =
      Item.count before v.kind := by
    rw [← poolSize_ofItems, ← length_literals, literals_ofItems]
  rw [entry_eq_ok_iff, literals_ofItems, List.filterMap_append, List.filter_append, ← hcount,
    List.getElem?_append_right (Nat.le_refl _), Nat.sub_self]
  simp

theorem eq_take_append_cons {items : List Item} {i : Nat} {item : Item}
    (h : items[i]? = some item) :
    items = items.take i ++ item :: items.drop (i + 1) ∧ (items.take i).length = i := by
  obtain ⟨hlt, hget⟩ := List.getElem?_eq_some_iff.mp h
  refine ⟨?_, List.length_take_of_le (Nat.le_of_lt hlt)⟩
  rw [← hget, ← List.drop_eq_getElem_cons, List.take_append_drop]

theorem slot_of_getElem? {items : List Item} {i : Nat} {item : Item} (h : items[i]? = some item) :
    (ofItems items).slots[i]? = some (item.slot (Item.count (items.take i))) := by
  obtain ⟨hsplit, hlength⟩ := eq_take_append_cons h
  have hslot := slot_ofItems (items.take i) item (items.drop (i + 1))
  rwa [← hsplit, hlength] at hslot

theorem entry_of_getElem? {items : List Item} {i : Nat} {v : Value}
    (h : items[i]? = some (.ofValue v)) :
    (ofItems items).entry v.kind (Item.count (items.take i) v.kind) = .ok v := by
  have hentry := entry_ofItems (items.take i) v (items.drop (i + 1))
  rwa [← (eq_take_append_cons h).1] at hentry

/-- **The literal in a place** of a pool of the finished code. -/
theorem exists_item_of_entry {items : List Item} {k : Kind} {index : Nat} {v : Value}
    (h : (ofItems items).entry k index = .ok v) :
    ∃ before after, items = before ++ .ofValue v :: after ∧ v.kind = k ∧
      Item.count before k = index := by
  rw [entry_eq_ok_iff, literals_ofItems] at h
  induction items generalizing index with
  | nil => cases h
  | cons item items ih =>
    -- An item without a literal of the kind is passed over.
    have hskip (hno : item.value?.any (·.kind = k) = false)
        (hrest : ((items.filterMap Item.value?).filter (·.kind = k))[index]? = some v) :
        ∃ before after, item :: items = before ++ .ofValue v :: after ∧ v.kind = k ∧
          Item.count before k = index := by
      obtain ⟨before, after, rfl, hkind, hcount⟩ := ih hrest
      refine ⟨item :: before, after, rfl, hkind, ?_⟩
      rw [← hcount, Item.count, List.countP_cons_of_neg (by simp [hno]), Item.count]
    rcases hvalue : item.value? with _ | w <;> simp only [List.filterMap_cons, hvalue] at h
    · exact hskip (by rw [hvalue]; rfl) h
    · by_cases hw : w.kind = k
      · obtain rfl := Item.eq_ofValue hvalue
        rw [List.filter_cons_of_pos (by simpa using hw)] at h
        cases index with
        | zero =>
          cases h
          exact ⟨[], items, rfl, hw, rfl⟩
        | succ index =>
          obtain ⟨before, after, rfl, hkind, hcount⟩ := ih h
          refine ⟨.ofValue w :: before, after, rfl, hkind, ?_⟩
          rw [← hcount, Item.count, List.countP_cons_of_pos (by simp [hw]), Item.count]
      · rw [List.filter_cons_of_neg (by simpa using hw)] at h
        exact hskip (by simp [hvalue, hw]) h

end Code

end PoolMachine
