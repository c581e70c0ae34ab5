import PoolMachine.Proofs.Sweep
import PoolMachine.Proofs.Turns

/-!
# The store as a history

A run writes to its store with one instruction and reads it with another. Between the two may lie
any number of instructions, loops and stores to other names.

**Theorem (`Machine.advance_store_history`).** In every state that a run reaches, a name is bound to
the integer that the last completed store of this name took from the stack (`LastStored`), and is
unbound if there was no such store (`Unstored`). So names are never lost, and a load of a global
pushes what was stored last, or fails because nothing was.

A store is completed where the instruction at the program counter is a store and the run goes on
(`StoresAt`). An instruction that is carried out is such a store, and inserts what it took, or
leaves the store as it is (`store_of_carries`); the theorem is this step, repeated.
-/

namespace PoolMachine

/-! ## Instructions and the store -/

theorem Opcode.Performs.store_cases {code : Code} {op : Opcode} {s : State} {e : Effect}
    (h : op.Performs code s e) :
    (op = .store ∧ ∃ x n, s.stack = .string x :: .integer n :: e.state.stack ∧
      e.state.store = s.store.insert x n) ∨ op ≠ .store ∧ e.state.store = s.store := by
  cases h with
  | store => exact .inl ⟨rfl, _, _, rfl, rfl⟩
  | _ => exact .inr ⟨nofun, rfl⟩

theorem State.load_cases (s : State) (limit : Option Nat) (v : Value) :
    s.load limit v = .ok ⟨⟨s.pc + 2, v :: s.stack, s.store⟩, ""⟩ ∨
      ∃ d, limit = some d ∧ d ≤ s.stack.length ∧ s.load limit v = .error (.stackOverflow d) := by
  rcases limit with _ | d
  · exact .inl (load_none s v)
  · rw [load_some, load_none, ok_bind, Effect.within, List.length_cons]
    by_cases hfits : s.stack.length + 1 ≤ d
    · exact .inl (if_pos hfits)
    · exact .inr ⟨d, rfl, Nat.le_of_lt_succ (Nat.lt_of_not_le hfits), if_neg hfits⟩

/-- A load has an undefined name exactly where its operand stands for the name and the name is not
bound. -/
theorem Opcode.perform_undefinedGlobal_iff {code : Code} (limit : Option Nat) {s : State}
    {x : String} : loadGlobal.perform code limit s = .error (.undefinedGlobal x) ↔
      code.stringOperand .loadGlobal s.pc = .ok x ∧ s.store.get? x = none := by
  constructor
  · intro h
    rcases hname : code.stringOperand .loadGlobal s.pc with f | y
    · -- An operand without a literal is a defect.
      obtain ⟨d, rfl⟩ := FaultsIn.of_defect (P := fun f => ∃ d, f = .defect d) (fun d => ⟨d, rfl⟩)
        _ _ hname
      simp [perform, hname] at h
    · rcases hn : s.store.get? y with _ | n
      · simp only [perform, hname, ok_bind, hn, throw_eq_error, Except.error.injEq,
          Fault.undefinedGlobal.injEq] at h
        exact ⟨congrArg _ h, h ▸ hn⟩
      · simp only [perform, hname, ok_bind, hn] at h
        rcases s.load_cases limit (.integer n) with hload | ⟨d, -, -, hload⟩ <;>
          cases hload.symm.trans h
  · rintro ⟨hname, hnone⟩
    simp only [perform, hname, ok_bind, hnone, throw_eq_error]

namespace Machine

variable {σ : Type} [Sink σ] {code : Code} {limits : Limits} {m₀ m m' : Machine σ} {j k : Nat}
  {x : String} {n : Word}

/-! ## Completed stores -/

/-- The instruction after `j` others is a store, and takes the name `x` and the integer `n` from the
stack. -/
def StoresAt (code : Code) (limits : Limits) (m₀ : Machine σ) (j : Nat) (x : String) (n : Word) :
    Prop :=
  ∃ m m', Reaches code limits j m₀ m ∧ m.Carries code limits m' ∧
    code.slots[m.state.pc]? = some Opcode.store.code ∧
    m.state.stack = .string x :: .integer n :: m'.state.stack

/-- Of the first `k` instructions, the last that stores `x` stores `n`. -/
def LastStored (code : Code) (limits : Limits) (m₀ : Machine σ) (k : Nat) (x : String) (n : Word) :
    Prop :=
  ∃ j < k, StoresAt code limits m₀ j x n ∧
    ∀ i, j < i → i < k → ∀ n', ¬ StoresAt code limits m₀ i x n'

/-- None of the first `k` instructions stores `x`. -/
def Unstored (code : Code) (limits : Limits) (m₀ : Machine σ) (k : Nat) (x : String) : Prop :=
  ∀ j < k, ∀ n, ¬ StoresAt code limits m₀ j x n

/-- Whether an instruction is a completed store shows in the machines around it. -/
theorem storesAt_iff (hk : Reaches code limits k m₀ m) (hcarries : m.Carries code limits m') :
    StoresAt code limits m₀ k x n ↔ code.slots[m.state.pc]? = some Opcode.store.code ∧
      m.state.stack = .string x :: .integer n :: m'.state.stack := by
  constructor
  · rintro ⟨m₁, m₂, hk', hcarries', hop, hstack⟩
    obtain rfl := hk.unique hk'
    obtain rfl := hcarries.unique hcarries'
    exact ⟨hop, hstack⟩
  · rintro ⟨hop, hstack⟩
    exact ⟨m, m', hk, hcarries, hop, hstack⟩

theorem StoresAt.unique {n' : Word} (h : StoresAt code limits m₀ k x n)
    (h' : StoresAt code limits m₀ k x n') : n = n' := by
  obtain ⟨m, m', hk, hcarries, -, hstack⟩ := h
  obtain ⟨-, hstack'⟩ := (storesAt_iff hk hcarries).mp h'
  cases hstack.symm.trans hstack'
  rfl

theorem LastStored.unique {n' : Word} (h : LastStored code limits m₀ k x n)
    (h' : LastStored code limits m₀ k x n') : n = n' := by
  obtain ⟨j, hj, hstores, hlast⟩ := h
  obtain ⟨j', hj', hstores', hlast'⟩ := h'
  rcases Nat.lt_trichotomy j j' with hlt | rfl | hgt
  · exact absurd hstores' (hlast j' hlt hj' n')
  · exact hstores.unique hstores'
  · exact absurd hstores (hlast' j hgt hj n)

theorem LastStored.not_unstored (h : LastStored code limits m₀ k x n) :
    ¬ Unstored code limits m₀ k x := by
  obtain ⟨j, hj, hstores, -⟩ := h
  exact fun hnone => hnone j hj n hstores

/-! ### One more instruction -/

theorem StoresAt.lastStored (h : StoresAt code limits m₀ k x n) :
    LastStored code limits m₀ (k + 1) x n :=
  ⟨k, Nat.lt_succ_self k, h, fun _ hki hik => absurd (Nat.le_of_lt_succ hik) (Nat.not_le.mpr hki)⟩

theorem LastStored.succ (h : LastStored code limits m₀ k x n)
    (hk : ∀ n', ¬ StoresAt code limits m₀ k x n') : LastStored code limits m₀ (k + 1) x n := by
  obtain ⟨j, hj, hstores, hlast⟩ := h
  refine ⟨j, Nat.lt_succ_of_lt hj, hstores, fun i hji hik => ?_⟩
  rcases Nat.lt_succ_iff_lt_or_eq.mp hik with hik | rfl
  · exact hlast i hji hik
  · exact hk

theorem Unstored.succ (h : Unstored code limits m₀ k x)
    (hk : ∀ n, ¬ StoresAt code limits m₀ k x n) : Unstored code limits m₀ (k + 1) x := by
  intro j hj
  rcases Nat.lt_succ_iff_lt_or_eq.mp hj with hj | rfl
  · exact h j hj
  · exact hk

/-! ## The store follows the history -/

/-- An instruction that is carried out is a store, and inserts what it took from the stack, or is
none, and leaves the store as it is. -/
theorem store_of_carries (h : m.Carries code limits m') :
    (code.slots[m.state.pc]? = some Opcode.store.code ∧ ∃ x n,
      m.state.stack = .string x :: .integer n :: m'.state.stack ∧
      m'.state.store = m.state.store.insert x n) ∨
    code.slots[m.state.pc]? ≠ some Opcode.store.code ∧ m'.state.store = m.state.store := by
  obtain ⟨-, op, hop, hdispatch⟩ := h
  obtain ⟨effect, sink, hp, -, rfl⟩ := dispatch_eq_running_iff.mp hdispatch
  rcases (Opcode.performs_of_perform_limit hp).store_cases with ⟨rfl, h⟩ | ⟨hne, h⟩
  · exact .inl ⟨hop, h⟩
  · refine .inr ⟨fun hstore => hne ?_, h⟩
    exact Opcode.code_injective (Option.some.inj (hop.symm.trans hstore))

/-- A name of the store agrees with the history of a run. -/
def Recorded (code : Code) (limits : Limits) (m₀ : Machine σ) (k : Nat) (x : String)
    (bound : Option Word) : Prop :=
  (∃ n, bound = some n ∧ LastStored code limits m₀ k x n) ∨
    bound = none ∧ Unstored code limits m₀ k x

theorem Recorded.succ {bound : Option Word} (h : Recorded code limits m₀ k x bound)
    (hk : ∀ n, ¬ StoresAt code limits m₀ k x n) : Recorded code limits m₀ (k + 1) x bound := by
  rcases h with ⟨n, hn, hlast⟩ | ⟨hnone, hunstored⟩
  · exact .inl ⟨n, hn, hlast.succ hk⟩
  · exact .inr ⟨hnone, hunstored.succ hk⟩

/-- **An instruction keeps the store in agreement with the history.** -/
theorem recorded_of_carries (hk : Reaches code limits k m₀ m) (hcarries : m.Carries code limits m')
    (h : ∀ x, Recorded code limits m₀ k x (m.state.store.get? x)) (x : String) :
    Recorded code limits m₀ (k + 1) x (m'.state.store.get? x) := by
  rcases store_of_carries hcarries with ⟨hop, y, n, hstack, hstore⟩ | ⟨hop, hstore⟩
  · rw [hstore, NameMap.get?_insert]
    by_cases hx : x = y
    · subst hx
      rw [if_pos rfl]
      exact .inl ⟨n, rfl, ((storesAt_iff hk hcarries).mpr ⟨hop, hstack⟩).lastStored⟩
    · rw [if_neg hx]
      refine (h x).succ fun n' hstores => hx ?_
      cases hstack.symm.trans ((storesAt_iff hk hcarries).mp hstores).2
      rfl
  · rw [hstore]
    exact (h x).succ fun n hstores => hop ((storesAt_iff hk hcarries).mp hstores).1

/-- **The store of a reachable machine is the history of its stores.** -/
theorem recorded_of_reaches (hinit : m₀.state.store = .empty) (hk : Reaches code limits k m₀ m)
    (x : String) : Recorded code limits m₀ k x (m.state.store.get? x) := by
  induction k generalizing m x with
  | zero =>
    cases hk
    rw [hinit]
    exact .inr ⟨rfl, fun j hj => absurd hj (Nat.not_lt_zero j)⟩
  | succ k ih =>
    obtain ⟨m₁, hm₁, hcarries⟩ := hk.exists_last
    exact recorded_of_carries hm₁ hcarries (ih hm₁) x

theorem Recorded.eq_some_iff {bound : Option Word} (h : Recorded code limits m₀ k x bound) :
    bound = some n ↔ LastStored code limits m₀ k x n := by
  rcases h with ⟨n', rfl, hlast⟩ | ⟨rfl, hunstored⟩
  · rw [Option.some.injEq]
    constructor
    · rintro rfl
      exact hlast
    · exact hlast.unique
  · exact ⟨nofun, fun hlast => absurd hunstored hlast.not_unstored⟩

theorem Recorded.eq_none_iff {bound : Option Word} (h : Recorded code limits m₀ k x bound) :
    bound = none ↔ Unstored code limits m₀ k x := by
  rcases h with ⟨n, rfl, hlast⟩ | ⟨rfl, hunstored⟩
  · exact ⟨nofun, fun hunstored => absurd hunstored hlast.not_unstored⟩
  · exact ⟨fun _ => hunstored, fun _ => rfl⟩

theorem names_of_reaches (h : Reaches code limits j m m') (hx : x ∈ m.state.store.names) :
    x ∈ m'.state.store.names := by
  induction h with
  | refl => exact hx
  | head hcarries _ ih =>
    apply ih
    rcases store_of_carries hcarries with ⟨-, y, n, -, hstore⟩ | ⟨-, hstore⟩
    · obtain ⟨a, ha⟩ := NameMap.mem_names_iff.mp hx
      rw [NameMap.mem_names_iff, hstore, NameMap.get?_insert]
      by_cases hxy : x = y
      · exact ⟨n, if_pos hxy⟩
      · exact ⟨a, by rw [if_neg hxy, ha]⟩
    · rwa [hstore]

/-! ## Loads of globals -/

theorem dispatch_loadGlobal (limits : Limits)
    (hname : code.stringOperand .loadGlobal m.state.pc = .ok x)
    (hn : m.state.store.get? x = some n) :
    m.dispatch code limits .loadGlobal = .running ⟨⟨m.state.pc + 2,
        .integer n :: m.state.stack, m.state.store⟩, m.steps + 1, m.sink⟩ ∨
      ∃ d, limits.depth = some d ∧ d ≤ m.state.stack.length ∧
        m.dispatch code limits .loadGlobal = .fail m.state.pc (.stackOverflow d) m.sink := by
  have hperform : Opcode.loadGlobal.perform code limits.depth m.state =
      m.state.load limits.depth (.integer n) := by
    simp only [Opcode.perform, hname, ok_bind, hn]
  rcases m.state.load_cases limits.depth (.integer n) with hload | ⟨d, hd, hle, hload⟩
  · exact .inl (dispatch_eq_running_iff.mpr ⟨_, m.sink, hperform.trans hload, rfl, rfl⟩)
  · exact .inr ⟨d, hd, hle, dispatch_of_error (hperform.trans hload)⟩

theorem exists_bound_of_carries (hop : code.slots[m.state.pc]? = some Opcode.loadGlobal.code)
    (h : m.Carries code limits m') :
    ∃ x n, code.stringOperand .loadGlobal m.state.pc = .ok x ∧ m.state.store.get? x = some n ∧
      m'.state.stack = .integer n :: m.state.stack := by
  obtain ⟨-, op, hop', hdispatch⟩ := h
  obtain rfl : op = .loadGlobal := Opcode.code_injective (Option.some.inj (hop'.symm.trans hop))
  obtain ⟨effect, sink, hp, -, rfl⟩ := dispatch_eq_running_iff.mp hdispatch
  obtain ⟨⟨pc, stack, store⟩, steps, sink₀⟩ := m
  cases Opcode.performs_of_perform_limit hp with
  | loadGlobal hname hn => exact ⟨_, _, hname, hn, rfl⟩

theorem turn_undefinedGlobal_iff (hfetches : m.Fetches code limits)
    (hop : code.slots[m.state.pc]? = some Opcode.loadGlobal.code) :
    (∃ es, m.turn code limits = (es, .fail m.state.pc (.undefinedGlobal x) m.sink)) ↔
      code.stringOperand .loadGlobal m.state.pc = .ok x ∧ m.state.store.get? x = none := by
  rw [turn_of_opcode hop hfetches.2, ← Opcode.perform_undefinedGlobal_iff limits.depth]
  constructor
  · rintro ⟨es, hturn⟩
    obtain ⟨-, ⟨reason, hf⟩ | hp⟩ := dispatch_eq_fail (Prod.mk.inj hturn).2
    · cases hf
    · exact hp
  · intro hp
    exact ⟨_, Prod.ext rfl (dispatch_of_error hp)⟩

/-! ## Runs -/

/-- **The store is the history of the stores of a run.** -/
theorem advance_store_history {ω : Type} (code : Code) (limits : Limits) (sink : σ)
    (observe : ω → Event → ω) (w w' : ω) (k : Nat) (m : Machine σ)
    (hrun : (start sink).advance code limits observe k w = (.running m, w')) :
    -- A name is bound to what was stored last, and unbound if nothing was.
    (∀ x n, m.state.store.get? x = some n ↔ LastStored code limits (start sink) k x n) ∧
    (∀ x, m.state.store.get? x = none ↔ Unstored code limits (start sink) k x) ∧
    -- Names are never lost, and only a store changes the store.
    (∀ j m', Reaches code limits j m m' → ∀ x ∈ m.state.store.names, x ∈ m'.state.store.names) ∧
    (∀ m', m.Carries code limits m' → code.slots[m.state.pc]? ≠ some Opcode.store.code →
      m'.state.store = m.state.store) ∧
    -- A load that is carried out pushes what was stored last.
    (code.slots[m.state.pc]? = some Opcode.loadGlobal.code → ∀ m', m.Carries code limits m' →
      ∃ x n, code.stringOperand .loadGlobal m.state.pc = .ok x ∧
        LastStored code limits (start sink) k x n ∧
        m'.state.stack = .integer n :: m.state.stack) ∧
    -- One that finds its name stored is carried out, unless the stack is full, and one fails for an
    -- undefined name exactly where the name was never stored.
    (code.slots[m.state.pc]? = some Opcode.loadGlobal.code → m.Fetches code limits → ∀ x,
      (code.stringOperand .loadGlobal m.state.pc = .ok x →
        ∀ n, LastStored code limits (start sink) k x n →
          m.Carries code limits ⟨⟨m.state.pc + 2, .integer n :: m.state.stack, m.state.store⟩,
            m.steps + 1, m.sink⟩ ∨
          ∃ d, limits.depth = some d ∧ d ≤ m.state.stack.length ∧
            ∃ es, m.turn code limits = (es, .fail m.state.pc (.stackOverflow d) m.sink)) ∧
      ((∃ es, m.turn code limits = (es, .fail m.state.pc (.undefinedGlobal x) m.sink)) ↔
        code.stringOperand .loadGlobal m.state.pc = .ok x ∧
          Unstored code limits (start sink) k x)) := by
  obtain ⟨es, hturns, -⟩ := exists_turns_of_advance code limits hrun
  have hrecorded := recorded_of_reaches rfl (reaches_iff_turns.mpr ⟨es, hturns⟩)
  have hsome (x : String) (n : Word) := (hrecorded x).eq_some_iff (n := n)
  have hnone (x : String) := (hrecorded x).eq_none_iff
  refine ⟨hsome, hnone, fun j m' h x => names_of_reaches h, ?_, ?_, ?_⟩
  · intro m' hcarries hop
    rcases store_of_carries hcarries with ⟨hop', -⟩ | ⟨-, hstore⟩
    · exact absurd hop' hop
    · exact hstore
  · intro hop m' hcarries
    obtain ⟨x, n, hname, hn, hstack⟩ := exists_bound_of_carries hop hcarries
    exact ⟨x, n, hname, (hsome x n).mp hn, hstack⟩
  · intro hop hfetches x
    refine ⟨fun hname n hlast => ?_, ?_⟩
    · rcases dispatch_loadGlobal limits hname ((hsome x n).mpr hlast) with
        hpushes | ⟨d, hd, hle, hfull⟩
      · exact .inl ⟨hfetches, .loadGlobal, hop, hpushes⟩
      · exact .inr ⟨d, hd, hle, _, by rw [turn_of_opcode hop hfetches.2, hfull]⟩
    · rw [turn_undefinedGlobal_iff hfetches hop, hnone]

end Machine

/-- Stores `x`, `y`, and `x` again, and then loads `x`. -/
def Code.overwriting : Code where
  slots := #[Opcode.loadConst.code, 0, Opcode.loadName.code, 0, Opcode.store.code,
    Opcode.loadConst.code, 1, Opcode.loadName.code, 1, Opcode.store.code,
    Opcode.loadConst.code, 2, Opcode.loadName.code, 0, Opcode.store.code,
    Opcode.loadGlobal.code, 0]
  integers := #[1, 2, 3]
  strings := #["x", "y"]
  booleans := #[]

theorem Code.overwriting_history : ∃ m : Machine String,
    (Machine.start "").advance overwriting {} (fun w _ => w) 9 () = (.running m, ()) ∧
      m.state.store.get? "x" = some 3 ∧
      Machine.LastStored overwriting {} (.start "") 9 "x" 3 ∧
      Machine.Unstored overwriting {} (.start "") 9 "z" := by
  have hrun : (Machine.start "").advance overwriting {} (fun w _ => w) 9 () =
      (.running ⟨⟨15, [], .ofList [("x", 1), ("y", 2), ("x", 3)]⟩, 9, ""⟩, ()) := rfl
  obtain ⟨hsome, hnone, -⟩ := Machine.advance_store_history _ _ _ _ _ _ _ _ hrun
  exact ⟨_, hrun, rfl, (hsome "x" 3).mp rfl, (hnone "z").mp rfl⟩

end PoolMachine
