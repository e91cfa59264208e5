import Mathlib.Data.List.Basic
import Transduction.Text.Quoted

/-!
# Written things that show where they end

Text is read back from left to right, so each thing that is written must show where it ends,
whatever follows it. This is `SelfDelimiting`; a closing mark passes it on from the signs to the
sequence, if no sign begins with the mark (`SelfDelimiting.flatMap`).

* An escaped code point ends with a brace, which is no digit, and its digits are those of one number
  only (`selfDelimiting_codePoint`).
* Inside quotes, a character stands for itself, has a name of one letter after a backslash, or is
  escaped by its code point, and no letter that is a name begins a code point
  (`selfDelimiting_escape`).
* No escaped character begins with a quote, so a quoted text ends at the first quote that is not
  escaped (`selfDelimiting_quote`).
-/

namespace Transduction.Text

variable {α : Type} {write : α → List Char}

/-- What is written shows where it ends and what it stands for: where two texts that begin with
something written are equal, the same is written in both, and the same follows. -/
def SelfDelimiting (write : α → List Char) : Prop :=
  ∀ a b s t, write a ++ s = write b ++ t → a = b ∧ s = t

/-- **A sequence shows where it ends**, if its signs do and a mark follows that begins no sign. -/
theorem SelfDelimiting.flatMap (h : SelfDelimiting write) {mark : Char}
    (hmark : ∀ a, ∃ c l, write a = c :: l ∧ c ≠ mark) :
    SelfDelimiting fun w : List α ↦ w.flatMap write ++ [mark] := by
  -- a sequence that has ended is followed by the mark, one that goes on by a sign
  have hend : ∀ a (v : List α) (s t : List Char),
      ([] : List α).flatMap write ++ [mark] ++ s ≠ (a :: v).flatMap write ++ [mark] ++ t := by
    intro a v s t heq
    obtain ⟨c, l, ha, hne⟩ := hmark a
    rw [List.flatMap_cons, ha] at heq
    exact hne (List.cons.inj heq).1.symm
  intro w
  induction w with
  | nil =>
    intro v s t heq
    rcases v with - | ⟨b, v⟩
    · exact ⟨rfl, (List.cons.inj heq).2⟩
    · exact absurd heq (hend b v s t)
  | cons a w ih =>
    intro v s t heq
    rcases v with - | ⟨b, v⟩
    · exact absurd heq.symm (hend a w t s)
    · simp only [List.flatMap_cons, List.append_assoc] at heq
      obtain ⟨rfl, hrest⟩ := h a b _ _ heq
      obtain ⟨rfl, hst⟩ := ih v s t (by simpa using hrest)
      exact ⟨rfl, hst⟩

/-! ### Code points -/

/-- Hexadecimal digits are told apart. -/
theorem digitChar_injOn {a b : Nat} (ha : a < 16) (hb : b < 16)
    (h : Nat.digitChar a = Nat.digitChar b) : a = b := by
  have hall : ∀ a < 16, ∀ b < 16, Nat.digitChar a = Nat.digitChar b → a = b := by decide
  exact hall a ha b hb h

/-- A number is known by its digits. -/
theorem toDigits_injective : (Nat.toDigits 16).Injective := by
  intro a
  induction a using Nat.strongRecOn with
  | ind a ih =>
    intro b h
    -- the length tells whether a number has one digit, so both have, or neither
    have hshort : ∀ n, (Nat.toDigits 16 n).length ≤ 1 ↔ n < 16 := fun n ↦
      Nat.length_toDigits_le_iff (by decide) Nat.one_pos
    have hiff : a < 16 ↔ b < 16 := by rw [← hshort, ← hshort, h]
    rcases Nat.lt_or_ge a 16 with ha | ha
    · have hb := hiff.1 ha
      rw [Nat.toDigits_of_lt_base ha, Nat.toDigits_of_lt_base hb] at h
      exact digitChar_injOn ha hb (List.cons.inj h).1
    · have hb : 16 ≤ b := Nat.not_lt.1 (mt hiff.2 (Nat.not_lt.2 ha))
      rw [Nat.toDigits_of_base_le (by decide) ha, Nat.toDigits_of_base_le (by decide) hb] at h
      obtain ⟨hquotient, hlast⟩ := List.append_inj' h rfl
      have hdiv := ih (a / 16) (by omega) hquotient
      have hmod := digitChar_injOn (Nat.mod_lt a (by decide)) (Nat.mod_lt b (by decide))
        (List.cons.inj hlast).1
      omega

/-- No digit is a closing brace. -/
theorem brace_not_mem_toDigits (n : Nat) : '}' ∉ Nat.toDigits 16 n := by
  induction n using Nat.strongRecOn with
  | ind n ih =>
    have hdigit : ∀ d < 16, Nat.digitChar d ≠ '}' := by decide
    rcases Nat.lt_or_ge n 16 with hn | hn
    · rw [Nat.toDigits_of_lt_base hn, List.mem_singleton]
      exact (hdigit n hn).symm
    · rw [Nat.toDigits_of_base_le (by decide) hn, List.mem_append, List.mem_singleton]
      rintro (hmem | hlast)
      · exact ih (n / 16) (by omega) hmem
      · exact hdigit (n % 16) (Nat.mod_lt n (by decide)) hlast.symm

/-- What stands before the first mark is known, and what follows it. -/
theorem append_inj_of_not_mem {l k s t : List Char} {mark : Char} (hl : mark ∉ l) (hk : mark ∉ k)
    (h : l ++ mark :: s = k ++ mark :: t) : l = k ∧ s = t := by
  induction l generalizing k with
  | nil =>
    rcases k with - | ⟨c, k⟩
    · exact ⟨rfl, (List.cons.inj h).2⟩
    · exact absurd ((List.cons.inj h).1 ▸ List.mem_cons_self) hk
  | cons c l ih =>
    rcases k with - | ⟨d, k⟩
    · exact absurd ((List.cons.inj h).1 ▸ List.mem_cons_self) hl
    · obtain ⟨rfl, hrest⟩ := List.cons.inj h
      obtain ⟨rfl, hst⟩ :=
        ih (mt (List.mem_cons_of_mem _) hl) (mt (List.mem_cons_of_mem _) hk) hrest
      exact ⟨rfl, hst⟩

/-- **An escaped code point shows where it ends.** -/
theorem selfDelimiting_codePoint : SelfDelimiting codePoint := by
  intro a b s t h
  simp only [codePoint, List.cons_append, List.append_assoc, List.nil_append, List.cons.injEq,
    true_and] at h
  obtain ⟨hdigits, hst⟩ :=
    append_inj_of_not_mem (brace_not_mem_toDigits a) (brace_not_mem_toDigits b) h
  exact ⟨toDigits_injective hdigits, hst⟩

/-! ### Quotes -/

/-- The character that a letter names after a backslash. -/
def named : Char → Char
  | '0' => '\x00'
  | 't' => '\t'
  | 'n' => '\n'
  | 'r' => '\r'
  | c => c

/-- **Three ways to write a character inside quotes**: by itself, by its name, and by its code
point. -/
theorem escape_cases (c : Char) :
    (escape c = [c] ∧ c ≠ '\\' ∧ c ≠ '"') ∨
      (∃ k, escape c = ['\\', k] ∧ k ≠ 'u' ∧ named k = c) ∨
      escape c = codePoint c.toNat := by
  fun_cases escape c with
  | case1 => exact .inr (.inl ⟨'0', rfl, by decide, rfl⟩)
  | case2 => exact .inr (.inl ⟨'t', rfl, by decide, rfl⟩)
  | case3 => exact .inr (.inl ⟨'n', rfl, by decide, rfl⟩)
  | case4 => exact .inr (.inl ⟨'r', rfl, by decide, rfl⟩)
  | case5 => exact .inr (.inl ⟨'"', rfl, by decide, rfl⟩)
  | case6 => exact .inr (.inl ⟨'\\', rfl, by decide, rfl⟩)
  | case7 _ hplain _ _ _ _ hquote hbackslash => exact .inl ⟨if_pos hplain, hbackslash, hquote⟩
  | case8 _ hplain => exact .inr (.inr (if_neg hplain))

/-- **A character inside quotes shows where it ends.** -/
theorem selfDelimiting_escape : SelfDelimiting escape := by
  intro a b s t h
  rcases escape_cases a with ⟨ha, hne, -⟩ | ⟨k, ha, hu, rfl⟩ | ha <;>
    rcases escape_cases b with ⟨hb, hne', -⟩ | ⟨k', hb, hu', rfl⟩ | hb <;>
    rw [ha, hb] at h
  -- the first character tells whether one stands for itself, the second one whether it has a name
  · exact List.cons.inj h
  · exact absurd (List.cons.inj h).1 hne
  · exact absurd (List.cons.inj h).1 hne
  · exact absurd (List.cons.inj h).1.symm hne'
  · obtain ⟨rfl, hst⟩ := List.cons.inj (List.cons.inj h).2
    exact ⟨rfl, hst⟩
  · exact absurd (List.cons.inj (List.cons.inj h).2).1 hu
  · exact absurd (List.cons.inj h).1.symm hne'
  · exact absurd (List.cons.inj (List.cons.inj h).2).1.symm hu'
  · obtain ⟨hcode, hst⟩ := selfDelimiting_codePoint _ _ _ _ h
    exact ⟨Char.toNat_inj.1 hcode, hst⟩

/-- No character inside quotes begins with a quote. -/
theorem exists_escape_eq_cons (c : Char) : ∃ d l, escape c = d :: l ∧ d ≠ '"' := by
  rcases escape_cases c with ⟨hc, -, hquote⟩ | ⟨k, hc, -, -⟩ | hc
  · exact ⟨c, [], hc, hquote⟩
  · exact ⟨'\\', [k], hc, by decide⟩
  · exact ⟨'\\', _, hc, by decide⟩

/-- **A quoted text shows where it ends.** -/
theorem selfDelimiting_quote : SelfDelimiting quote := by
  intro a b s t h
  exact selfDelimiting_escape.flatMap exists_escape_eq_cons a b s t (List.cons.inj h).2

end Transduction.Text
