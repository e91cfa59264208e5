import Transduction.Expr.Display
import Transduction.Expr.EmptyWord
import Transduction.Proofs.Expr.Regrouping
import Transduction.Proofs.Text.Quoted

/-!
# Written expressions can be told apart

An expression without variables is known by its text, up to the grouping of concatenations, and the
text does not show more (`display_eq_iff`).

A chain of concatenations is written link after link, so its text is read as a chain that is grouped
to the right: a link, and then the rest of the chain if a space follows that is not the one before a
bar. What follows decides two things.

* After a link stands neither a colon nor a star: these would belong to the link (`EndsLink`).
* After a chain stands the end of the text, a closing parenthesis, or the bar of a union
  (`EndsChain`). No link begins with a bar.

Under these conditions links and chains show where they end (`ReadsLink`, `ReadsChain`), and each
kind of expression passes this on from its parts to itself. Unions, stars and expressions with
output all begin with a parenthesis and a chain; what stands after this chain tells them apart.
-/

namespace Transduction

open Text

/-! ### Symbols -/

namespace Symbol

/-- A symbol that stands for a character is the code point of this character. -/
theorem eq_ofChar {x : Symbol} {c : Char} (h : x.toChar? = some c) : x = ofChar c := by
  rw [toChar?] at h
  split at h
  · cases h
    rfl
  · cases h

/-- **Two ways to write a symbol**: as a character, and by its number. -/
theorem display_cases (x : Symbol) :
    (∃ c, x.display = [c] ∧ x.toChar? = some c ∧ c ≠ '\\' ∧ c ≠ '\x27') ∨
      x.display = codePoint x.toNat := by
  rw [display]
  split
  · next c hchar =>
    split
    · exact .inr rfl
    · next hplain =>
      simp only [Bool.or_eq_true, decide_eq_true_eq, not_or] at hplain
      exact .inl ⟨c, rfl, hchar, hplain.2, hplain.1.2⟩
  · exact .inr rfl

/-- **A symbol shows where it ends.** -/
theorem selfDelimiting_display : SelfDelimiting display := by
  intro x y s t h
  rcases display_cases x with ⟨c, hx, hc, hne, -⟩ | hx <;>
    rcases display_cases y with ⟨d, hy, hd, hne', -⟩ | hy <;>
    rw [hx, hy] at h
  · obtain ⟨rfl, hst⟩ := List.cons.inj h
    exact ⟨(eq_ofChar hc).trans (eq_ofChar hd).symm, hst⟩
  · exact absurd (List.cons.inj h).1 hne
  · exact absurd (List.cons.inj h).1.symm hne'
  · obtain ⟨hnumber, hst⟩ := selfDelimiting_codePoint _ _ _ _ h
    exact ⟨UInt32.toNat_inj.1 hnumber, hst⟩

/-- No symbol begins with a single quote. -/
theorem exists_display_eq_cons (x : Symbol) : ∃ c l, x.display = c :: l ∧ c ≠ '\x27' := by
  rcases display_cases x with ⟨c, hx, -, -, hquote⟩ | hx
  · exact ⟨c, [], hx, hquote⟩
  · exact ⟨'\\', _, hx, by decide⟩

end Symbol

/-! ### What follows a part -/

/-- What can follow a link of a chain: neither an output nor the star of a link. -/
def EndsLink : List Char → Prop
  | ':' :: _ | '*' :: _ => False
  | _ => True

/-- What can follow a chain: nothing, a closing parenthesis, or the bar of a union. -/
def EndsChain : List Char → Prop
  | [] | ')' :: _ | ' ' :: '|' :: _ => True
  | _ => False

/-- What may follow a chain may follow a link. -/
theorem EndsChain.endsLink {s : List Char} (h : EndsChain s) : EndsLink s := by
  rw [EndsChain.eq_def] at h
  split at h
  · trivial
  · trivial
  · trivial
  · exact h.elim

/-- **An output shows where it ends**, if what follows is no output. -/
theorem Output.display_append_inj {o p : Output} {s t : List Char} (hs : EndsLink s)
    (ht : EndsLink t) (h : o.display ++ s = p.display ++ t) : o = p ∧ s = t := by
  rw [display, display] at h
  rcases o with - | ⟨c, o⟩ <;> rcases p with - | ⟨d, p⟩
  · exact ⟨rfl, h⟩
  · -- what follows would be an output
    obtain rfl : s = _ := h
    exact hs.elim
  · obtain rfl : _ = t := h
    exact ht.elim
  · exact selfDelimiting_quote _ _ _ _ (List.cons.inj h).2

/-- An output, if there is one, is not taken for a star. -/
theorem Output.star_cons_ne_display_append {o : Output} {s t : List Char} (ht : EndsLink t) :
    '*' :: s ≠ o.display ++ t := by
  intro h
  rw [display] at h
  rcases o with - | ⟨c, o⟩
  · obtain rfl : _ = t := h
    exact ht.elim
  · exact absurd (List.cons.inj h).1 (by decide)

namespace Expr

variable {a b e f l r : Expr} {out : Output} {s t : List Char}

/-! ### Parts and what follows them -/

theorem display_union_append (l r : Expr) (s : List Char) :
    (union l r).display ++ s =
      '(' :: (l.display ++ ' ' :: '|' :: ' ' :: (r.display ++ ')' :: s)) := by
  simp [display, parenthesised]

theorem display_concat_append (l r : Expr) (s : List Char) :
    (concat l r).display ++ s = l.display ++ ' ' :: (r.display ++ s) := by
  simp [display]

theorem display_star_append (b : Expr) (s : List Char) :
    (star b).display ++ s = '(' :: (b.display ++ ')' :: '*' :: s) := by
  simp [display, parenthesised]

theorem display_emit_append (b : Expr) (out : Output) (s : List Char) :
    (emit b out).display ++ s = '(' :: (b.display ++ ')' :: (out.display ++ s)) := by
  simp [display, parenthesised]

theorem display_literal_append (word : List Symbol) (out : Output) (s : List Char) :
    (literal word out).display ++ s =
      '\x27' :: (word.flatMap Symbol.display ++ ['\x27'] ++ (out.display ++ s)) := by
  simp [display]

theorem display_range_append (c : SymbolRange) (out : Output) (s : List Char) :
    (range c out).display ++ s =
      '[' :: (c.lower.display ++ '-' :: (c.upper.display ++ ']' :: (out.display ++ s))) := by
  simp [display]

/-! ### Chains that are grouped to the right -/

/-- A link of a chain: no concatenation. -/
def IsLink (e : Expr) : Prop := ∀ l r, e ≠ concat l r

/-- All chains in the expression are grouped to the right, and no variable occurs. -/
def IsChain : Expr → Prop
  | union l r => l.IsChain ∧ r.IsChain
  | concat l r => l.IsLink ∧ l.IsChain ∧ r.IsChain
  | star b | emit b _ => b.IsChain
  | literal .. | range .. => True
  | var _ => False

/-- Two chains are joined to one. -/
theorem isChain_concatRight (hl : l.IsChain) (hr : r.IsChain) : (concatRight l r).IsChain := by
  induction l with
  | concat a b _ ih => exact ⟨hl.1, hl.2.1, ih hl.2.2⟩
  | union | star | literal | range | emit => exact ⟨nofun, hl, hr⟩
  | var => exact hl.elim

/-- An expression without variables is a chain when it is grouped to the right. -/
theorem isChain_groupRight (h : ∀ name, var name ∉ e.parts) : e.groupRight.IsChain := by
  induction e with
  | union l r ihl ihr =>
    simp only [parts, List.mem_cons, List.mem_append, not_or] at h
    exact ⟨ihl fun name ↦ (h name).2.1, ihr fun name ↦ (h name).2.2⟩
  | concat l r ihl ihr =>
    simp only [parts, List.mem_cons, List.mem_append, not_or] at h
    exact isChain_concatRight (ihl fun name ↦ (h name).2.1) (ihr fun name ↦ (h name).2.2)
  | star b ih | emit b out ih =>
    simp only [parts, List.mem_cons, not_or] at h
    exact ih fun name ↦ (h name).2
  | literal | range => trivial
  | var name => exact absurd (List.mem_singleton_self _) (h name)

/-- **Moving brackets does not show in the text.** -/
theorem Regroups.display_eq (h : Regroups e f) : e.display = f.display := by
  induction h with
  | refl => rfl
  | symm _ ih => exact ih.symm
  | trans _ _ ih ih' => exact ih.trans ih'
  | assoc a b c => simp [display]
  | union _ _ ihl ihr | concat _ _ ihl ihr => rw [display, display, ihl, ihr]
  | star _ ih | emit _ _ ih => rw [display, display, ih]

/-! ### Reading back -/

/-- The link shows where it ends, among links. -/
def ReadsLink (e : Expr) : Prop :=
  ∀ f s t, e.display ++ s = f.display ++ t → f.IsLink → f.IsChain → EndsLink s → EndsLink t →
    e = f ∧ s = t

/-- The chain shows where it ends, among chains. -/
def ReadsChain (e : Expr) : Prop :=
  ∀ f s t, e.display ++ s = f.display ++ t → f.IsChain → EndsChain s → EndsChain t →
    e = f ∧ s = t

/-- A chain begins with a link, and no link begins with a bar. -/
theorem IsChain.exists_display_eq_cons (h : e.IsChain) :
    ∃ c l, e.display = c :: l ∧ c ≠ '|' := by
  induction e with
  | union | star | emit => exact ⟨'(', _, rfl, by decide⟩
  | literal => exact ⟨'\x27', _, rfl, by decide⟩
  | range => exact ⟨'[', _, rfl, by decide⟩
  | concat l r ihl _ =>
    obtain ⟨c, k, hc, hne⟩ := ihl h.2.1
    refine ⟨c, k ++ [' '] ++ r.display, ?_, hne⟩
    rw [display, hc]
    rfl
  | var => exact h.elim

/-- A chain does not end where another link follows. -/
theorem IsChain.not_endsChain (h : e.IsChain) (s : List Char) :
    ¬ EndsChain (' ' :: (e.display ++ s)) := by
  obtain ⟨c, l, hc, hne⟩ := h.exists_display_eq_cons
  rw [hc, List.cons_append]
  intro hends
  rw [EndsChain.eq_def] at hends
  split at hends
  · next heq => cases heq
  · next heq => exact absurd (List.cons.inj heq).1 (by decide)
  · next heq => exact hne (List.cons.inj (List.cons.inj heq).2).1
  · exact hends

/-- A link that stands alone is a chain. -/
theorem ReadsLink.readsChain (he : e.ReadsLink) : e.ReadsChain := by
  intro f s t h hf hs ht
  cases f with
  | concat a r =>
    obtain ⟨hlink, ha, hr⟩ := hf
    rw [display_concat_append] at h
    obtain ⟨-, rfl⟩ := he a s _ h hlink ha hs.endsLink trivial
    exact absurd hs (hr.not_endsChain t)
  | union | star | literal | range | emit | var =>
    exact he _ s t h nofun hf hs.endsLink ht.endsLink

/-- A link, and then a chain. -/
theorem ReadsLink.concat (hl : l.ReadsLink) (hr : r.ReadsChain) (hchain : r.IsChain) :
    (concat l r).ReadsChain := by
  intro f s t h hf hs ht
  rw [display_concat_append] at h
  cases f with
  | concat a r' =>
    obtain ⟨hlink, ha, hr'⟩ := hf
    rw [display_concat_append] at h
    obtain ⟨rfl, hrest⟩ := hl a _ _ h hlink ha trivial trivial
    obtain ⟨rfl, hst⟩ := hr r' s t (List.cons.inj hrest).2 hr' hs ht
    exact ⟨rfl, hst⟩
  | union | star | literal | range | emit | var =>
    obtain ⟨-, rfl⟩ := hl _ _ t h nofun hf trivial ht.endsLink
    exact absurd ht (hchain.not_endsChain s)

/-- A literal ends with its second quote, and with its output if there is one. -/
theorem readsLink_literal (word : List Symbol) (out : Output) : (literal word out).ReadsLink := by
  intro f s t h hlink hf hs ht
  rw [display_literal_append] at h
  cases f with
  | literal v p =>
    rw [display_literal_append] at h
    obtain ⟨rfl, hrest⟩ := Symbol.selfDelimiting_display.flatMap Symbol.exists_display_eq_cons
      word v _ _ (List.cons.inj h).2
    obtain ⟨rfl, hst⟩ := Output.display_append_inj hs ht hrest
    exact ⟨rfl, hst⟩
  | union | star | emit | range => exact absurd (List.cons.inj h).1 (by decide)
  | concat a b => exact absurd rfl (hlink a b)
  | var => exact hf.elim

/-- A range ends with its bracket, and with its output if there is one. -/
theorem readsLink_range (c : SymbolRange) (out : Output) : (range c out).ReadsLink := by
  intro f s t h hlink hf hs ht
  rw [display_range_append] at h
  cases f with
  | range d p =>
    rw [display_range_append] at h
    obtain ⟨hlower, hrest⟩ := Symbol.selfDelimiting_display _ _ _ _ (List.cons.inj h).2
    obtain ⟨hupper, hrest'⟩ := Symbol.selfDelimiting_display _ _ _ _ (List.cons.inj hrest).2
    obtain ⟨rfl, hst⟩ := Output.display_append_inj hs ht (List.cons.inj hrest').2
    have hbounds : c = d := SymbolRange.mk.injEq .. ▸ ⟨hlower, hupper⟩
    exact ⟨hbounds ▸ rfl, hst⟩
  | union | star | emit | literal => exact absurd (List.cons.inj h).1 (by decide)
  | concat a b => exact absurd rfl (hlink a b)
  | var => exact hf.elim

/-- **What stands after an opening parenthesis and a chain tells what the parenthesis belongs to**:
a bar to a union, a closing parenthesis with a star to a star, and one without to an expression with
output. -/
theorem ReadsChain.opens (hb : b.ReadsChain) {u : List Char}
    (h : '(' :: (b.display ++ u) = f.display ++ t) (hlink : f.IsLink) (hf : f.IsChain)
    (hu : EndsChain u) :
    (∃ r, f = union b r ∧ u = ' ' :: '|' :: ' ' :: (r.display ++ ')' :: t)) ∨
      (f = star b ∧ u = ')' :: '*' :: t) ∨
      ∃ p, f = emit b p ∧ u = ')' :: (Output.display p ++ t) := by
  cases f with
  | union l r =>
    rw [display_union_append] at h
    obtain ⟨rfl, hrest⟩ := hb l u _ (List.cons.inj h).2 hf.1 hu trivial
    exact .inl ⟨r, rfl, hrest⟩
  | star b' =>
    rw [display_star_append] at h
    obtain ⟨rfl, hrest⟩ := hb b' u _ (List.cons.inj h).2 hf hu trivial
    exact .inr (.inl ⟨rfl, hrest⟩)
  | emit b' p =>
    rw [display_emit_append] at h
    obtain ⟨rfl, hrest⟩ := hb b' u _ (List.cons.inj h).2 hf hu trivial
    exact .inr (.inr ⟨p, rfl, hrest⟩)
  -- the text of a literal or a range does not start with a parenthesis
  | literal | range => exact absurd (List.cons.inj h).1 (by decide)
  | concat l r => exact absurd rfl (hlink l r)
  | var => exact hf.elim

/-- The bar after the first chain shows a union. -/
theorem ReadsChain.union (hl : l.ReadsChain) (hr : r.ReadsChain) : (union l r).ReadsLink := by
  intro f s t h hlink hf hs ht
  rw [display_union_append] at h
  rcases hl.opens h hlink hf trivial with ⟨r', rfl, hrest⟩ | ⟨rfl, hrest⟩ | ⟨p, rfl, hrest⟩
  · simp only [List.cons.injEq, true_and] at hrest
    obtain ⟨rfl, hclose⟩ := hr r' _ _ hrest hf.2 trivial trivial
    exact ⟨rfl, (List.cons.inj hclose).2⟩
  · exact absurd (List.cons.inj hrest).1 (by decide)
  · exact absurd (List.cons.inj hrest).1 (by decide)

/-- The star after the parenthesis shows a star. -/
theorem ReadsChain.star (hb : b.ReadsChain) : (star b).ReadsLink := by
  intro f s t h hlink hf hs ht
  rw [display_star_append] at h
  rcases hb.opens h hlink hf trivial with ⟨r, rfl, hrest⟩ | ⟨rfl, hrest⟩ | ⟨p, rfl, hrest⟩
  · exact absurd (List.cons.inj hrest).1 (by decide)
  · exact ⟨rfl, (List.cons.inj (List.cons.inj hrest).2).2⟩
  · exact absurd (List.cons.inj hrest).2 (Output.star_cons_ne_display_append ht)

/-- A parenthesis without a star shows an expression with output. -/
theorem ReadsChain.emit (hb : b.ReadsChain) (out : Output) : (emit b out).ReadsLink := by
  intro f s t h hlink hf hs ht
  rw [display_emit_append] at h
  rcases hb.opens h hlink hf trivial with ⟨r, rfl, hrest⟩ | ⟨rfl, hrest⟩ | ⟨p, rfl, hrest⟩
  · exact absurd (List.cons.inj hrest).1 (by decide)
  · exact absurd (List.cons.inj hrest).2.symm (Output.star_cons_ne_display_append hs)
  · obtain ⟨rfl, hst⟩ := Output.display_append_inj hs ht (List.cons.inj hrest).2
    exact ⟨rfl, hst⟩

/-- **Every link and every chain shows where it ends.** -/
theorem IsChain.reads (h : e.IsChain) : (e.IsLink → e.ReadsLink) ∧ e.ReadsChain := by
  induction e with
  | union l r ihl ihr =>
    have hlink := (ihl h.1).2.union (ihr h.2).2
    exact ⟨fun _ ↦ hlink, hlink.readsChain⟩
  | star b ih =>
    have hlink := (ih h).2.star
    exact ⟨fun _ ↦ hlink, hlink.readsChain⟩
  | emit b out ih =>
    have hlink := (ih h).2.emit out
    exact ⟨fun _ ↦ hlink, hlink.readsChain⟩
  | literal word out =>
    exact ⟨fun _ ↦ readsLink_literal word out, (readsLink_literal word out).readsChain⟩
  | range c out => exact ⟨fun _ ↦ readsLink_range c out, (readsLink_range c out).readsChain⟩
  | concat l r ihl ihr =>
    obtain ⟨hlink, hl, hr⟩ := h
    exact ⟨fun hnot ↦ absurd rfl (hnot l r), ((ihl hl).1 hlink).concat (ihr hr).2 hr⟩
  | var => exact h.elim

/-! ### The text of an expression -/

/-- **An expression without variables is known by its text**, up to the grouping of concatenations:
two texts are equal exactly when the expressions are, once every chain of concatenations is grouped
to the right. Symbols and outputs may be any. -/
theorem display_eq_iff (he : ∀ name, var name ∉ e.parts) (hf : ∀ name, var name ∉ f.parts) :
    e.display = f.display ↔ e.groupRight = f.groupRight := by
  constructor
  · intro h
    rw [(regroups_groupRight e).display_eq, (regroups_groupRight f).display_eq] at h
    have hreads := (isChain_groupRight he).reads.2
    refine (hreads _ [] [] ?_ (isChain_groupRight hf) trivial trivial).1
    rw [h]
  · intro h
    exact (regroups_iff_groupRight_eq.2 h).display_eq

/-- Three links, grouped to the left, whose symbols and outputs look like marks of the text: a bar
between quotes, all symbols from the space to the closing bracket, and a parenthesis and a star. -/
def marked : Expr :=
  concat (concat (text "' | '" ['"']) (emit (star (range ⟨32, 93⟩ [])) []))
    (union (text ")" []) (empty ['*']))

/-- Symbols and outputs that look like marks of the text do not deceive the reader: the expression
differs from its right-grouped form, and both have one text. -/
theorem marked_display_eq_iff :
    (∀ name, var name ∉ marked.parts) ∧ (∀ name, var name ∉ marked.groupRight.parts) ∧
      marked ≠ marked.groupRight ∧ marked.display = marked.groupRight.display := by
  have hleft : ∀ name, var name ∉ marked.parts := by simp [marked, parts, text]
  have hright : ∀ name, var name ∉ marked.groupRight.parts := by
    simp [marked, parts, text, groupRight, concatRight]
  exact ⟨hleft, hright, by decide, (display_eq_iff hleft hright).2 (by decide)⟩

/-- Symbols that could close a literal are escaped, all others stand for themselves. -/
example : marked.display =
    "'\\u\x7b27\x7d | \\u\x7b27\x7d':\"\\\"\" (([ -]])*) (')' | '':\"*\")".toList := by
  decide +kernel

end Expr

end Transduction
