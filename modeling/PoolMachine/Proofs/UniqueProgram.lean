import PoolMachine.Proofs.Origin
import PoolMachine.Proofs.UniqueListing

/-!
# A listing determines its program

**Theorem (`Program.listing_injOn`).** Programs with the same listing are equal, if no name and no
string in them holds a line feed. Assembled programs are such.

The listing of a program is one block of lines for each function, without lengths or separators.
Names and literals are shown bare, so a line of one may read `DEF x`, `DATA:` or `ENDDEF`. What
holds a block together is the number of its lines:

* without line feeds in names and strings, every line of the listing is one of `listingLines`, so
  the text determines the list of lines (`Text.unlines_injOn`);
* a block starts with the line of its name and the line `CODE`; the instructions end at the first
  empty line, as each of theirs starts with an address; the pools have four lines, and `ENDDEF` is
  one more. So the front of the lines determines the first block, and the function that it shows
  (`Program.block_append_inj`).
-/

namespace PoolMachine

/-! ## Texts on one line -/

namespace Text

variable {s t : String}

/-- The text holds no line feed. -/
def OneLine (s : String) : Prop := '\n' ∉ s.toList

instance (s : String) : Decidable (OneLine s) := inferInstanceAs (Decidable ('\n' ∉ s.toList))

theorem oneLine_iff : OneLine s ↔ ∀ c ∈ s.toList, (c == '\n') = false := by
  constructor
  · intro h c hc
    refine beq_false_of_ne fun heq => ?_
    rw [heq] at hc
    exact h hc
  · intro h hmem
    exact absurd (h '\n' hmem) (by decide)

@[simp] theorem oneLine_append : OneLine (s ++ t) ↔ OneLine s ∧ OneLine t := by
  simp [OneLine]

theorem IsWord.oneLine (h : IsWord s) : OneLine s := by
  intro hmem
  exact absurd (h.2 '\n' hmem) (by decide)

theorem oneLine_repr (n : Nat) : OneLine n.repr := by
  intro hmem
  rw [Nat.toList_repr] at hmem
  exact not_noDigit_of_mem_toDigits (by decide) (by decide) hmem (by decide)

/-- **A text determines its lines**, if none of them holds a line feed. -/
theorem unlines_injOn {ls ks : List String} (hls : ∀ l ∈ ls, OneLine l)
    (hks : ∀ k ∈ ks, OneLine k) (h : unlines ls = unlines ks) : ls = ks := by
  have hlines : lines (unlines ls).toList = lines (unlines ks).toList := by rw [h]
  rw [lines_unlines fun l hl => oneLine_iff.mp (hls l hl),
    lines_unlines fun k hk => oneLine_iff.mp (hks k hk)] at hlines
  exact (List.map_inj_right fun _ _ => String.toList_injective).mp (List.append_inj' hlines rfl).1

/-- Lines up to the first empty one. -/
theorem append_empty_inj {ls ks r s : List String} (hls : ∀ l ∈ ls, l ≠ "")
    (hks : ∀ k ∈ ks, k ≠ "") (h : ls ++ "" :: r = ks ++ "" :: s) : ls = ks ∧ r = s := by
  induction ls generalizing ks with
  | nil =>
    cases ks with
    | nil => exact ⟨rfl, (List.cons.inj h).2⟩
    | cons k ks => exact absurd (List.cons.inj h).1.symm (hks k List.mem_cons_self)
  | cons l ls ih =>
    cases ks with
    | nil => exact absurd (List.cons.inj h).1 (hls l List.mem_cons_self)
    | cons k ks =>
      obtain ⟨rfl, hrest⟩ := List.cons.inj h
      obtain ⟨rfl, hend⟩ := ih (fun l hl => hls l (List.mem_cons_of_mem _ hl))
        (fun k hk => hks k (List.mem_cons_of_mem _ hk)) hrest
      exact ⟨rfl, hend⟩

end Text

/-! ## Lines of a block -/

theorem Instruction.text_ne_empty (i : Instruction) : i.text ≠ "" := by
  intro hempty
  obtain ⟨c, r, hline, hc⟩ := i.starts_line
  rw [line, hempty] at hline
  exact hc (List.cons.inj hline).1.symm

theorem Instruction.oneLine_text {i : Instruction}
    (h : ∀ index literal, i.operand = some (index, literal) → Text.OneLine literal.text) :
    Text.OneLine i.text := by
  obtain ⟨address, op, operand⟩ := i
  have hhead : Text.OneLine (address.repr ++ ":\t" ++ op.mnemonic) := by
    simp only [Text.oneLine_append]
    exact ⟨⟨Text.oneLine_repr address, by decide⟩, op.isWord_mnemonic.oneLine⟩
  rcases operand with _ | ⟨index, literal⟩
  · exact hhead
  · have hliteral := h index literal rfl
    have hindex := Text.oneLine_repr index
    show Text.OneLine (address.repr ++ ":\t" ++ op.mnemonic ++ " " ++ index.repr ++ "\t(" ++
      literal.text ++ ")")
    simp only [Text.oneLine_append] at hhead ⊢
    exact ⟨⟨⟨⟨⟨hhead, by decide⟩, hindex⟩, by decide⟩, hliteral⟩, by decide⟩

/-- Literals are shown on one line if the strings are on one. -/
theorem Code.oneLine_entry {code : Code} (h : ∀ s ∈ code.strings.toList, Text.OneLine s)
    {k : Kind} {index : Nat} {v : Value} (hv : code.entry k index = .ok v) :
    Text.OneLine v.text := by
  have hmem : v ∈ code.literals k := List.mem_of_getElem? (entry_eq_ok_iff.mp hv)
  cases k with
  | integer =>
    obtain ⟨n, -, rfl⟩ := List.mem_map.mp hmem
    intro hline
    exact Word.text_not_mem hline (by decide) (by decide) rfl
  | string =>
    obtain ⟨s, hs, rfl⟩ := List.mem_map.mp hmem
    exact h s hs
  | boolean =>
    obtain ⟨b, -, rfl⟩ := List.mem_map.mp hmem
    cases b <;> decide

theorem Code.oneLine_instruction {code : Code} (h : ∀ s ∈ code.strings.toList, Text.OneLine s)
    {is : List Instruction} (his : code.instructions = .ok is) {i : Instruction} (hi : i ∈ is) :
    Text.OneLine i.text := by
  have hsupplies := ((Code.instructions_eq_ok_iff.mp his).holds i hi).supplies
  apply Instruction.oneLine_text
  intro index literal hoperand
  unfold Code.Supplies at hsupplies
  rcases hpool : i.op.operand with _ | pool <;> simp only [hpool] at hsupplies
  · rw [hsupplies] at hoperand
    cases hoperand
  · obtain ⟨index', literal', hoperand', hentry⟩ := hsupplies
    rw [hoperand] at hoperand'
    cases hoperand'
    exact oneLine_entry h hentry

namespace Program

variable {f g : String × Code} {is js : List Instruction}

/-- No name and no string of the program holds a line feed. -/
def OneLine (p : Program) : Prop :=
  ∀ f ∈ p.toList, Text.OneLine f.1 ∧ ∀ s ∈ f.2.strings.toList, Text.OneLine s

/-- The lines that show a function with its instructions. -/
def block (f : String × Code) (is : List Instruction) : List String :=
  ("DEF " ++ f.1) :: ("CODE" :: is.map Instruction.text ++ "" :: f.2.poolLines) ++ ["ENDDEF"]

theorem functionLines_eq_ok_iff {ls : List String} :
    functionLines f = .ok ls ↔ ∃ is, f.2.instructions = .ok is ∧ ls = block f is := by
  rcases h : f.2.instructions with e | is
  · simp [functionLines, Code.listingLines, h]
  · simp [functionLines, Code.listingLines, h, block, eq_comm]

/-- **The front of the lines determines the first function.** -/
theorem block_append_inj (his : f.2.instructions = .ok is) (hjs : g.2.instructions = .ok js)
    {r s : List String} (h : block f is ++ r = block g js ++ s) : f = g ∧ r = s := by
  have hlines : ("DEF " ++ f.1) :: "CODE" ::
      (is.map Instruction.text ++ "" :: (f.2.poolLines ++ "ENDDEF" :: r)) =
      ("DEF " ++ g.1) :: "CODE" ::
        (js.map Instruction.text ++ "" :: (g.2.poolLines ++ "ENDDEF" :: s)) := by
    simpa [block] using h
  obtain ⟨hname, hrest⟩ := List.cons.inj hlines
  have hne (is : List Instruction) : ∀ l ∈ is.map Instruction.text, l ≠ "" := by
    intro l hl
    obtain ⟨i, -, rfl⟩ := List.mem_map.mp hl
    exact i.text_ne_empty
  obtain ⟨htexts, hpools⟩ := Text.append_empty_inj (hne is) (hne js) (List.cons.inj hrest).2
  obtain ⟨hpools, hend⟩ := List.append_inj hpools rfl
  have hlines : is.flatMap Instruction.line = js.flatMap Instruction.line := by
    have hmap := congrArg (List.flatMap fun l : String => l.toList ++ ['\n']) htexts
    rwa [List.flatMap_map, List.flatMap_map] at hmap
  have hcode : f.2 = g.2 := Code.eq_of_lines_eq his hjs hlines hpools
  exact ⟨Prod.ext (String.append_right_inj _ |>.mp hname) hcode, (List.cons.inj hend).2⟩

theorem oneLine_block (hname : Text.OneLine f.1)
    (hstrings : ∀ s ∈ f.2.strings.toList, Text.OneLine s) (his : f.2.instructions = .ok is) :
    ∀ l ∈ block f is, Text.OneLine l := by
  have htexts : ∀ l ∈ is.map Instruction.text, Text.OneLine l := by
    intro l hl
    obtain ⟨i, hi, rfl⟩ := List.mem_map.mp hl
    exact Code.oneLine_instruction hstrings his hi
  have hpools : ∀ l ∈ f.2.poolLines, Text.OneLine l := by
    intro l hl
    exact Text.oneLine_iff.mpr (f.2.poolLines_not_lineFeed l hl)
  intro l hl
  simp only [block, List.mem_append, List.mem_cons, List.not_mem_nil, or_false] at hl
  rcases hl with (rfl | ((rfl | hl) | (rfl | hl))) | rfl
  · exact Text.oneLine_append.mpr ⟨by decide, hname⟩
  · decide
  · exact htexts l hl
  · decide
  · exact hpools l hl
  · decide

/-! ## Blocks one after another -/

/-- The blocks of functions, in order. -/
abbrev Blocks (fs : List (String × Code)) (bs : List (List String)) : Prop :=
  List.Forall₂ (fun f b => functionLines f = .ok b) fs bs

theorem blocks_of_mapM {fs : List (String × Code)} {bs : List (List String)}
    (h : fs.mapM functionLines = .ok bs) : Blocks fs bs := by
  induction fs generalizing bs with
  | nil =>
    cases h
    exact .nil
  | cons f fs ih =>
    rw [List.mapM_cons] at h
    rcases hf : functionLines f with e | b
    · simp [hf] at h
    · rcases hfs : fs.mapM functionLines with e | bs'
      · simp [hf, hfs] at h
      · simp only [hf, hfs, ok_bind, pure_eq_ok, Except.ok.injEq] at h
        subst h
        exact .cons hf (ih hfs)

/-- The lines of blocks determine the functions. -/
theorem Blocks.eq_of_flatten_eq {fs gs : List (String × Code)} {bs cs : List (List String)}
    (hbs : Blocks fs bs) (hcs : Blocks gs cs) (h : bs.flatten = cs.flatten) : fs = gs := by
  induction hbs generalizing gs cs with
  | nil =>
    cases hcs with
    | nil => rfl
    | cons hg =>
      obtain ⟨js, -, rfl⟩ := functionLines_eq_ok_iff.mp hg
      cases h
  | cons hf _ ih =>
    obtain ⟨is, his, rfl⟩ := functionLines_eq_ok_iff.mp hf
    cases hcs with
    | nil => cases h
    | cons hg hgs =>
      obtain ⟨js, hjs, rfl⟩ := functionLines_eq_ok_iff.mp hg
      rw [List.flatten_cons, List.flatten_cons] at h
      obtain ⟨rfl, hrest⟩ := block_append_inj his hjs h
      rw [ih hgs hrest]

theorem Blocks.oneLine {fs : List (String × Code)} {bs : List (List String)} (hbs : Blocks fs bs)
    (h : ∀ f ∈ fs, Text.OneLine f.1 ∧ ∀ s ∈ f.2.strings.toList, Text.OneLine s) :
    ∀ l ∈ bs.flatten, Text.OneLine l := by
  induction hbs with
  | nil =>
    intro l hl
    exact absurd hl List.not_mem_nil
  | cons hf _ ih =>
    obtain ⟨is, his, rfl⟩ := functionLines_eq_ok_iff.mp hf
    intro l hl
    rw [List.flatten_cons] at hl
    rcases List.mem_append.mp hl with hl | hl
    · obtain ⟨hname, hstrings⟩ := h _ List.mem_cons_self
      exact oneLine_block hname hstrings his l hl
    · exact ih (fun f hf => h f (List.mem_cons_of_mem _ hf)) l hl

theorem exists_blocks {p : Program} {text : String} (h : p.listing = .ok text) :
    ∃ bs, Blocks p.toList bs ∧ text = Text.unlines bs.flatten := by
  rcases hbs : p.toList.mapM functionLines with e | bs
  · simp [listing, listingLines, hbs, Except.map] at h
  · simp only [listing, listingLines, hbs, ok_bind, pure_eq_ok, Except.map, Except.ok.injEq] at h
    exact ⟨bs, blocks_of_mapM hbs, h.symm⟩

/-- **A listing determines its program**, if names and strings are on one line, as they are in all
assembled programs. -/
theorem listing_injOn :
    (∀ (p q : Program) (text : String), p.OneLine → q.OneLine →
      p.listing = .ok text → q.listing = .ok text → p = q) ∧
    ∀ (source : String) (p : Program), assemble source = .ok p → p.OneLine := by
  constructor
  · intro p q text hp hq hptext hqtext
    obtain ⟨bs, hbs, htext⟩ := exists_blocks hptext
    obtain ⟨cs, hcs, htext'⟩ := exists_blocks hqtext
    have hlines : bs.flatten = cs.flatten :=
      Text.unlines_injOn (hbs.oneLine hp) (hcs.oneLine hq) (htext.symm.trans htext')
    have hentries : p.toList = q.toList := hbs.eq_of_flatten_eq hcs hlines
    obtain ⟨entries, sorted⟩ := p
    obtain ⟨entries', sorted'⟩ := q
    obtain rfl : entries = entries' := hentries
    rfl
  · intro source p hp f hf
    obtain ⟨hname, hstrings⟩ := isWord_of_assemble hp f hf
    exact ⟨hname.oneLine, fun s hs => (hstrings s hs).oneLine⟩

/-- Names and strings that read like the lines between blocks. -/
def lookalike : Program :=
  .ofList [("ENDDEF", { slots := #[Opcode.loadName.code, 0], strings := #["ENDDEF"] }),
    ("CODE", { strings := #["DATA:", "DEF CODE"] }), ("", {})]

theorem eq_lookalike_iff : lookalike.OneLine ∧ ∃ text, lookalike.listing = .ok text ∧
    ∀ p : Program, p.OneLine → (p.listing = .ok text ↔ p = lookalike) := by
  have honeLine : lookalike.OneLine := by
    unfold OneLine
    decide
  refine ⟨honeLine, _, rfl, ?_⟩
  intro p hp
  constructor
  · intro h
    exact listing_injOn.1 p lookalike _ hp honeLine h rfl
  · intro h
    rw [h]
    rfl

end Program

end PoolMachine
