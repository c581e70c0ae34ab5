import Mathlib.Algebra.Order.Ring.Int
import PoolMachine.Proofs.Layout
import PoolMachine.Text.Quoted
import PoolMachine.Word

/-!
# Written forms that can be read back

A written form is *legible* if it can be read off the front of a longer text: where one of its stops
follows, the text shows what has been written and where it ends (`Legible`). There is no reader in
this; it is a property of the writer.

* Text that holds none of its stops is legible if it is injective (`Legible.of_forall_not`), which
  settles numbers and words.
* Legible forms one after another are legible, with or without separators (`Legible.flatMap`,
  `Legible.intercalate`), which settles lists and quoted text.

A quoted text may hold anything, so what makes it legible is that its escapes are a prefix code. Of
them the proof knows only the three forms of `Escaped`, not which characters are hidden.
-/

namespace PoolMachine

namespace Text

variable {α β : Type} {stop last : Char → Prop} {f : α → List Char}

/-- The text starts with a character that satisfies `p`. -/
def Starts (p : Char → Prop) (xs : List Char) : Prop := ∃ c r, xs = c :: r ∧ p c

namespace Starts

variable {p q : Char → Prop} {xs : List Char}

theorem cons {c : Char} (h : p c) (r : List Char) : Starts p (c :: r) := ⟨c, r, rfl, h⟩

theorem imp (h : Starts p xs) (hpq : ∀ c, p c → q c) : Starts q xs := by
  obtain ⟨c, r, hxs, hc⟩ := h
  exact ⟨c, r, hxs, hpq c hc⟩

theorem append (h : Starts p xs) (ys : List Char) : Starts p (xs ++ ys) := by
  obtain ⟨c, r, rfl, hc⟩ := h
  exact .cons hc (r ++ ys)

theorem not_both (h : Starts p xs) (h' : Starts (¬ p ·) xs) : False := by
  obtain ⟨c, r, rfl, hc⟩ := h
  obtain ⟨d, s, heq, hd⟩ := h'
  obtain ⟨rfl, -⟩ := List.cons.inj heq
  exact hd hc

end Starts

/-- Where stops follow, the text shows what has been written, and what follows. -/
def Legible (stop : Char → Prop) (f : α → List Char) : Prop :=
  ∀ ⦃a b : α⦄ ⦃xs ys : List Char⦄, Starts stop xs → Starts stop ys →
    f a ++ xs = f b ++ ys → a = b ∧ xs = ys

/-- Legible whatever follows. -/
abbrev SelfLegible (f : α → List Char) : Prop := Legible (fun _ => True) f

namespace Legible

/-! ## Single forms -/

theorem injective (hf : Legible stop f) {c : Char} (hc : stop c) : Function.Injective f := by
  intro a b hab
  have htext : f a ++ [c] = f b ++ [c] := by rw [hab]
  exact (hf (.cons hc []) (.cons hc []) htext).1

/-- **A form that holds none of its stops is legible**, as it ends where the first stop is. -/
theorem of_forall_not (hf : Function.Injective f) (h : ∀ a, ∀ c ∈ f a, ¬ stop c) :
    Legible stop f := by
  rintro a b _ _ ⟨c, r, rfl, hc⟩ ⟨d, s, rfl, hd⟩ htext
  rcases List.append_eq_append_iff.mp htext with ⟨as, hb, hr⟩ | ⟨as, ha, hs⟩
  · cases as with
    | nil => exact ⟨hf (by simpa using hb.symm), hr⟩
    | cons e as =>
      obtain ⟨rfl, -⟩ := List.cons.inj hr
      exact absurd hc (h b c (by simp [hb]))
  · cases as with
    | nil => exact ⟨hf (by simpa using ha), hs.symm⟩
    | cons e as =>
      obtain ⟨rfl, -⟩ := List.cons.inj hs
      exact absurd hd (h a d (by simp [ha]))

theorem comp (hf : Legible stop f) {g : β → α} (hg : Function.Injective g) :
    Legible stop (f ∘ g) := by
  intro a b xs ys hxs hys htext
  obtain ⟨hab, hrest⟩ := hf hxs hys htext
  exact ⟨hg hab, hrest⟩

theorem prepend (hf : Legible stop f) (front : List Char) : Legible stop fun a => front ++ f a := by
  intro a b xs ys hxs hys htext
  rw [List.append_assoc, List.append_assoc] at htext
  exact hf hxs hys (List.append_cancel_left htext)

/-- A stop that is part of the form makes it legible whatever follows. -/
theorem close (hf : Legible stop f) {c : Char} (hc : stop c) :
    SelfLegible fun a => f a ++ [c] := by
  intro a b xs ys _ _ htext
  rw [List.append_assoc, List.append_assoc] at htext
  obtain ⟨hab, hrest⟩ := hf (.cons hc xs) (.cons hc ys) htext
  exact ⟨hab, List.tail_eq_of_cons_eq hrest⟩

/-! ## Lists -/

/-- Each form starts with a stop of the form in front of it that does not end the list. -/
def Leads (stop last : Char → Prop) (f : α → List Char) : Prop :=
  ∀ a, Starts (fun c => stop c ∧ ¬ last c) (f a)

/-- After a form comes the next one, or the end of the list. -/
theorem Leads.starts (hlead : Leads stop last f) (hlast : ∀ c, last c → stop c) (as : List α)
    {xs : List Char} (hxs : Starts last xs) : Starts stop (as.flatMap f ++ xs) := by
  cases as with
  | nil => exact hxs.imp hlast
  | cons a as =>
    rw [List.flatMap_cons, List.append_assoc]
    exact ((hlead a).append _).imp fun c hc => hc.1

theorem Leads.ne (hlead : Leads stop last f) (a : α) {xs : List Char} (hxs : Starts last xs)
    (ys : List Char) : xs ≠ f a ++ ys := by
  rintro rfl
  exact hxs.not_both (((hlead a).append ys).imp fun c hc => hc.2)

/-- **Legible forms one after another are legible**, by induction over the forms read. -/
theorem flatMap (hf : Legible stop f) (hlast : ∀ c, last c → stop c) (hlead : Leads stop last f) :
    Legible last (List.flatMap f) := by
  intro as
  induction as with
  | nil =>
    intro bs xs ys hxs _ htext
    cases bs with
    | nil => exact ⟨rfl, htext⟩
    | cons b bs =>
      rw [List.flatMap_cons, List.append_assoc] at htext
      exact absurd htext (hlead.ne b hxs _)
  | cons a as ih =>
    intro bs xs ys hxs hys htext
    cases bs with
    | nil =>
      rw [List.flatMap_cons, List.append_assoc] at htext
      exact absurd htext.symm (hlead.ne a hys _)
    | cons b bs =>
      simp only [List.flatMap_cons, List.append_assoc] at htext
      obtain ⟨rfl, hrest⟩ :=
        hf (hlead.starts hlast as hxs) (hlead.starts hlast bs hys) htext
      obtain ⟨rfl, hend⟩ := ih hxs hys hrest
      exact ⟨rfl, hend⟩

/-- **Legible forms with separators between them are legible** up to the end of the list, if no
form looks like that end. -/
theorem intercalate {sep close : Char} {space : List Char}
    (hf : Legible (fun c => c = sep ∨ c = close) f) (hne : sep ≠ close)
    (hhead : ∀ a, Starts (· ≠ close) (f a)) :
    Legible (· = close) fun as : List α => (sep :: space).intercalate (as.map f) := by
  -- All forms but the first have a separator in front of them.
  have hlead : Leads (fun c => c = sep ∨ c = close) (· = close) fun a => (sep :: space) ++ f a :=
    fun a => .cons ⟨.inl rfl, hne⟩ (space ++ f a)
  have hcons (a : α) (as : List α) (xs : List Char) :
      (sep :: space).intercalate ((a :: as).map f) ++ xs =
        f a ++ (as.flatMap (fun a => (sep :: space) ++ f a) ++ xs) := by
    rw [List.map_cons, intercalate_cons, List.flatMap_map, List.append_assoc]
  intro as bs xs ys hxs hys htext
  dsimp only at htext
  rcases as with _ | ⟨a, as⟩ <;> rcases bs with _ | ⟨b, bs⟩
  · exact ⟨rfl, htext⟩
  · obtain rfl : xs = _ := htext.trans (hcons b bs ys)
    exact (hxs.not_both ((hhead b).append _)).elim
  · obtain rfl : ys = _ := htext.symm.trans (hcons a as xs)
    exact (hys.not_both ((hhead a).append _)).elim
  · rw [hcons, hcons] at htext
    obtain ⟨rfl, htail⟩ :=
      hf (hlead.starts (fun _ => .inr) as hxs) (hlead.starts (fun _ => .inr) bs hys) htext
    obtain ⟨rfl, hend⟩ :=
      (hf.prepend (sep :: space)).flatMap (fun _ => .inr) hlead hxs hys htail
    exact ⟨rfl, hend⟩

end Legible

/-- A list of legible texts between brackets is legible. -/
theorem legible_bracketed {f : α → String}
    (hf : Legible (fun c => c = ',' ∨ c = ']') fun a => (f a).toList)
    (hhead : ∀ a, Starts (· ≠ ']') (f a).toList) :
    SelfLegible fun as : List α => (bracketed (as.map f)).toList := by
  have hlist : Legible (· = ']') fun as : List α =>
      [',', ' '].intercalate (as.map fun a => (f a).toList) :=
    hf.intercalate (by decide) hhead
  have htext (as : List α) : (bracketed (as.map f)).toList =
      ['['] ++ [',', ' '].intercalate (as.map fun a => (f a).toList) ++ [']'] := by
    simp [bracketed, commaSeparated, String.toList_intercalate, Function.comp_def]
  simp only [htext]
  exact (hlist.prepend ['[']).close rfl

/-- Words without a comma or a bracket are legible in a list. -/
theorem legible_bracketed_of_forall_ne {f : α → String} (hf : Function.Injective f)
    (hne : ∀ a, f a ≠ "") (h : ∀ a, ∀ c ∈ (f a).toList, c ≠ ',' ∧ c ≠ ']') :
    SelfLegible fun as : List α => (bracketed (as.map f)).toList := by
  refine legible_bracketed (.of_forall_not ?_ ?_) ?_
  · intro a b hab
    exact hf (String.toList_injective hab)
  · rintro a c hc (rfl | rfl)
    · exact (h a _ hc).1 rfl
    · exact (h a _ hc).2 rfl
  · intro a
    obtain ⟨c, cs, hcs⟩ := List.exists_cons_of_ne_nil (l := (f a).toList) (by simpa using hne a)
    exact ⟨c, cs, hcs, (h a c (by simp [hcs])).2⟩

theorem bracketed_not_lineFeed {items : List String}
    (h : ∀ t ∈ items, ∀ c ∈ t.toList, (c == '\n') = false) :
    ∀ c ∈ (bracketed items).toList, (c == '\n') = false := by
  have hitems : ∀ c ∈ (commaSeparated items).toList, (c == '\n') = false := by
    rw [commaSeparated, String.toList_intercalate]
    refine forall_mem_intercalate (by simp) fun p hp => ?_
    obtain ⟨t, ht, rfl⟩ := List.mem_map.mp hp
    exact h t ht
  intro c hc
  simp only [bracketed, String.toList_append, List.mem_append] at hc
  rcases hc with (hc | hc) | hc
  · rw [List.mem_singleton.mp hc]
    rfl
  · exact hitems c hc
  · rw [List.mem_singleton.mp hc]
    rfl

/-! ## Numbers -/

theorem digitChar_injOn {m n : Nat} (hm : m < 16) (hn : n < 16)
    (h : m.digitChar = n.digitChar) : m = n := by
  have hall : ∀ m < 16, ∀ n < 16, m.digitChar = n.digitChar → m = n := by decide
  exact hall m hm n hn h

theorem toDigits_injective {b : Nat} (hb : 1 < b) (hb' : b ≤ 16) :
    Function.Injective (Nat.toDigits b) := by
  have hlong (c d : Char) (k : Nat) : [c] ≠ Nat.toDigits b k ++ [d] := by
    intro h
    have hpos : 0 < (Nat.toDigits b k).length := Nat.length_toDigits_pos
    have hlen := congrArg List.length h
    rw [List.length_append, List.length_singleton, List.length_singleton] at hlen
    omega
  intro m
  induction m using Nat.strong_induction_on with
  | _ m ih =>
    intro n h
    rw [Nat.toDigits_eq_if hb, Nat.toDigits_eq_if (n := n) hb] at h
    split at h <;> split at h
    · exact digitChar_injOn (by omega) (by omega) (List.singleton_inj.mp h)
    · exact absurd h (hlong _ _ _)
    · exact absurd h.symm (hlong _ _ _)
    · obtain ⟨hdiv, hmod⟩ := List.append_inj' h rfl
      have hm : m / b < m := Nat.div_lt_self (by omega) hb
      have hmlt := Nat.mod_lt m (show 0 < b by omega)
      have hnlt := Nat.mod_lt n (show 0 < b by omega)
      have hmod' := digitChar_injOn (by omega) (by omega) (List.singleton_inj.mp hmod)
      rw [← Nat.div_add_mod m b, ← Nat.div_add_mod n b, ih _ hm hdiv, hmod']

theorem exists_digitChar_of_mem_toDigits {b n : Nat} (hb : 1 < b) {c : Char}
    (h : c ∈ Nat.toDigits b n) : ∃ d, d < b ∧ c = Nat.digitChar d := by
  induction n using Nat.strong_induction_on with
  | _ n ih =>
    rw [Nat.toDigits_eq_if hb] at h
    split at h
    · exact ⟨n, ‹_›, List.mem_singleton.mp h⟩
    · rcases List.mem_append.mp h with h | h
      · exact ih (n / b) (Nat.div_lt_self (by omega) hb) h
      · exact ⟨n % b, Nat.mod_lt n (by omega), List.mem_singleton.mp h⟩

/-- A character that is no digit to any base up to sixteen. -/
def NoDigit (c : Char) : Prop := ∀ d < 16, c ≠ Nat.digitChar d

instance : DecidablePred NoDigit := fun c => Nat.decidableBallLT 16 fun d _ => c ≠ Nat.digitChar d

theorem not_noDigit_of_mem_toDigits {b n : Nat} (hb : 1 < b) (hb' : b ≤ 16) {c : Char}
    (h : c ∈ Nat.toDigits b n) : ¬ NoDigit c := by
  intro hc
  obtain ⟨d, hd, rfl⟩ := exists_digitChar_of_mem_toDigits hb h
  exact hc d (by omega) rfl

theorem legible_toDigits {b : Nat} (hb : 1 < b) (hb' : b ≤ 16) :
    Legible NoDigit (Nat.toDigits b) :=
  .of_forall_not (toDigits_injective hb hb') fun _ _ hc => not_noDigit_of_mem_toDigits hb hb' hc

theorem legible_repr : Legible NoDigit fun n : Nat => n.repr.toList := by
  simp only [Nat.toList_repr]
  exact legible_toDigits (by decide) (by decide)

/-! ## Quoted text -/

/-- The characters that have an escape by one character. -/
def shortEscapes : List (Char × Char) :=
  [('\x00', '0'), ('\t', 't'), ('\n', 'n'), ('\r', 'r'), ('"', '"'), ('\\', '\\')]

/-- What a character may become between quotes. -/
inductive Escaped (c : Char) : List Char → Prop
  | plain : c ≠ '\\' → c ≠ '"' → c ≠ '\n' → Escaped c [c]
  | short {x : Char} : (c, x) ∈ shortEscapes → Escaped c ['\\', x]
  | long : Escaped c (['\\', 'u', '\x7b'] ++ Nat.toDigits 16 c.toNat ++ ['\x7d'])

theorem escaped_escape (c : Char) : Escaped c (escape c) := by
  unfold escape
  split_ifs with h₀ h₁ h₂ h₃ h₄ h₅ h₆
  · exact .short (by simp [h₀, shortEscapes])
  · exact .short (by simp [h₁, shortEscapes])
  · exact .short (by simp [h₂, shortEscapes])
  · exact .short (by simp [h₃, shortEscapes])
  · exact .short (by simp [h₄, shortEscapes])
  · exact .short (by simp [h₅, shortEscapes])
  · exact .long
  · exact .plain h₅ h₄ h₂

theorem shortEscapes_inj : ∀ p ∈ shortEscapes, ∀ q ∈ shortEscapes, p.2 = q.2 → p.1 = q.1 := by
  decide

theorem shortEscapes_ne : ∀ p ∈ shortEscapes, p.2 ≠ 'u' ∧ p.2 ≠ '\n' := by decide

/-- **Escapes are a prefix code.** -/
theorem Escaped.append_inj {c d : Char} {cs ds r s : List Char} (hc : Escaped c cs)
    (hd : Escaped d ds) (h : cs ++ r = ds ++ s) : c = d ∧ r = s := by
  cases hc with
  | plain hback =>
    cases hd with
    | plain => exact List.cons.inj h
    | short | long => exact absurd (List.cons.inj h).1 hback
  | short hx =>
    cases hd with
    | plain hback => exact absurd (List.cons.inj h).1.symm hback
    | short hy =>
      obtain ⟨hxy, hrest⟩ := List.cons.inj (List.cons.inj h).2
      exact ⟨shortEscapes_inj _ hx _ hy hxy, hrest⟩
    | long => exact absurd (List.cons.inj (List.cons.inj h).2).1 (shortEscapes_ne _ hx).1
  | long =>
    cases hd with
    | plain hback => exact absurd (List.cons.inj h).1.symm hback
    | short hy => exact absurd (List.cons.inj (List.cons.inj h).2).1.symm (shortEscapes_ne _ hy).1
    | long =>
      -- The number ends at the brace, which is no digit.
      have hdigits : Nat.toDigits 16 c.toNat ++ '\x7d' :: r =
          Nat.toDigits 16 d.toNat ++ '\x7d' :: s := by simpa using h
      have hbrace : NoDigit '\x7d' := by decide
      obtain ⟨hcd, hrest⟩ :=
        legible_toDigits (by decide) (by decide) (.cons hbrace r) (.cons hbrace s) hdigits
      exact ⟨Char.toNat_inj.mp hcd, (List.cons.inj hrest).2⟩

theorem Escaped.starts {c : Char} {cs : List Char} (h : Escaped c cs) : Starts (· ≠ '"') cs := by
  cases h with
  | plain _ hquote => exact ⟨c, [], rfl, hquote⟩
  | short | long => exact .cons (by decide) _

theorem Escaped.not_lineFeed {c : Char} {cs : List Char} (h : Escaped c cs) :
    ∀ d ∈ cs, d ≠ '\n' := by
  intro d hd
  cases h with
  | plain _ _ hline =>
    rw [List.mem_singleton.mp hd]
    exact hline
  | short hx =>
    rcases List.mem_cons.mp hd with rfl | hd
    · decide
    · rw [List.mem_singleton.mp hd]
      exact (shortEscapes_ne _ hx).2
  | long =>
    rintro rfl
    have hdigit : '\n' ∈ Nat.toDigits 16 c.toNat := by simpa using hd
    exact not_noDigit_of_mem_toDigits (by decide) (by decide) hdigit (by decide)

theorem toList_quote (s : String) :
    (quote s).toList = ['"'] ++ s.toList.flatMap escape ++ ['"'] := by
  simp [quote]

/-- **Quoted text is legible**, whatever it holds. -/
theorem legible_quote : SelfLegible fun s => (quote s).toList := by
  have hescape : SelfLegible escape := by
    intro c d xs ys _ _ h
    exact (escaped_escape c).append_inj (escaped_escape d) h
  have hlead : Legible.Leads (fun _ => True) (· = '"') escape := by
    intro c
    exact (escaped_escape c).starts.imp fun _ hd => ⟨trivial, hd⟩
  have htext : Legible (· = '"') fun s : String => s.toList.flatMap escape :=
    (hescape.flatMap (fun _ _ => trivial) hlead).comp fun _ _ => String.toList_injective
  simp only [toList_quote]
  exact (htext.prepend ['"']).close rfl

theorem quote_not_lineFeed (s : String) : ∀ c ∈ (quote s).toList, c ≠ '\n' := by
  intro c hc
  rw [toList_quote, List.mem_append, List.mem_append, List.mem_flatMap] at hc
  rcases hc with (hc | ⟨d, -, hc⟩) | hc
  · rw [List.mem_singleton.mp hc]
    decide
  · exact (escaped_escape d).not_lineFeed c hc
  · rw [List.mem_singleton.mp hc]
    decide

end Text

/-! ## Words of the machine -/

theorem Word.toList_text (n : Word) : n.text.toList =
    (if n < 0 then ['-'] else []) ++ Nat.toDigits 10 n.toInt.natAbs := by
  unfold Word.text
  split <;> simp

theorem Word.text_ne_empty (n : Word) : n.text ≠ "" := by
  intro h
  have hnil : n.text.toList = [] := by simp [h]
  rw [Word.toList_text, List.append_eq_nil_iff] at hnil
  exact Nat.toDigits_ne_nil hnil.2

theorem Word.text_not_mem {n : Word} {c d : Char} (hc : c ∈ n.text.toList) (hsign : d ≠ '-')
    (hdigit : Text.NoDigit d) : c ≠ d := by
  rintro rfl
  rw [Word.toList_text, List.mem_append] at hc
  rcases hc with hc | hc
  · by_cases hn : n < 0
    · rw [if_pos hn] at hc
      exact hsign (List.mem_singleton.mp hc)
    · rw [if_neg hn] at hc
      exact List.not_mem_nil hc
  · exact Text.not_noDigit_of_mem_toDigits (by decide) (by decide) hc hdigit

theorem Word.text_injective : Function.Injective fun n : Word => n.text.toList := by
  -- A number does not start with a sign, so texts that are equal have the same sign.
  have hsign (m n : Nat) : ['-'] ++ Nat.toDigits 10 m ≠ [] ++ Nat.toDigits 10 n := by
    intro h
    have hmem : '-' ∈ [] ++ Nat.toDigits 10 n := h ▸ List.mem_cons_self
    exact Text.not_noDigit_of_mem_toDigits (by decide) (by decide) hmem (by decide)
  have hdigits := Text.toDigits_injective (b := 10) (by decide) (by decide)
  intro m n h
  simp only [Word.toList_text, Int64.lt_iff_toInt_lt] at h
  apply Int64.toInt_inj.mp
  split at h <;> split at h
  · have habs := hdigits (List.append_cancel_left h)
    have hm : m.toInt < 0 := ‹_›
    have hn : n.toInt < 0 := ‹_›
    omega
  · exact absurd h (hsign _ _)
  · exact absurd h.symm (hsign _ _)
  · have habs := hdigits (List.append_cancel_left h)
    have hm : ¬ m.toInt < 0 := ‹_›
    have hn : ¬ n.toInt < 0 := ‹_›
    omega

end PoolMachine
