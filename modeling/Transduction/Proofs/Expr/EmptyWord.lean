import Transduction.Expr.EmptyWord
import Transduction.Proofs.Expr.Rewriting

/-!
# Rewriting keeps the empty word

The laws that hold both ways keep the output on the empty word and every failure as they are
(`Law.emptyWord_eq`). Only where an end is taken out of a union does anything change: a union that
fails does so with shorter outputs, both having lost that end, and a union that does not emits on
the empty word what it did before (`emptyUnion_append`).

Failures are found from left to right, parts before the whole, and rewriting happens in the same
places. So the first failure stays the first one (`SameOutcome.bind`), and rewriting keeps the
outcome up to the ends that its unions have lost (`Rewrites.emptyWord`).
-/

namespace Transduction

theorem CompileError.Shortens.refl (e : CompileError) : e.Shortens e := by
  cases e with
  | ambiguousUnion lhs rhs => simpa using CompileError.Shortens.union lhs rhs []
  | ambiguousStar out => exact .star out
  | unsupportedVariable name => exact .var name
  | invalidRange range => exact .range range

/-- Two common ends that are cut off one after the other are one common end. -/
theorem CompileError.Shortens.trans {e f g : CompileError} (h : e.Shortens f) (k : f.Shortens g) :
    e.Shortens g := by
  cases h with
  | union lhs rhs s =>
    obtain ⟨a, b, t⟩ := k
    rw [List.append_assoc, List.append_assoc]
    exact .union a b (t ++ s)
  | star | var | range => exact k

namespace Expr

/-- The same output on the empty word, or the same failure up to the ends that unions have lost. -/
inductive SameOutcome :
    Except CompileError (Option Output) → Except CompileError (Option Output) → Prop
  /-- The same output, or none. -/
  | ok (a : Option Output) : SameOutcome (.ok a) (.ok a)
  /-- The same failure. -/
  | error {e f : CompileError} (shortens : e.Shortens f) : SameOutcome (.error e) (.error f)

namespace SameOutcome

variable {x y z : Except CompileError (Option Output)}

theorem refl (x : Except CompileError (Option Output)) : SameOutcome x x := by
  rcases x with e | a
  · exact .error (.refl e)
  · exact .ok a

theorem trans (h : SameOutcome x y) (k : SameOutcome y z) : SameOutcome x z := by
  cases h with
  | ok => exact k
  | error hshort =>
    cases k with
    | error hshort' => exact .error (hshort.trans hshort')

/-- The first failure stays the first one. -/
theorem bind {f g : Option Output → Except CompileError (Option Output)} (h : SameOutcome x y)
    (hfg : ∀ a, SameOutcome (f a) (g a)) : SameOutcome (x >>= f) (y >>= g) := by
  rcases h with a | hshort
  · exact hfg a
  · exact .error hshort

end SameOutcome

variable {e f : Expr}

/-- What a union of branches with a common end emits on the empty word. -/
theorem emptyUnion_append (a b : Option Output) (s : Output) :
    SameOutcome (emptyUnion (a.map (· ++ s)) (b.map (· ++ s)))
      (emptyUnion a b >>= fun c ↦ .ok (c.map (· ++ s))) := by
  rcases a with - | a <;> rcases b with - | b
  · exact .refl _
  · exact .refl _
  · exact .refl _
  · simp only [Option.map_some, emptyUnion, List.append_cancel_right_eq]
    by_cases hab : a = b
    · rw [if_pos hab, if_pos hab]
      exact .refl _
    · rw [if_neg hab, if_neg hab]
      exact .error (.union a b s)

/-- **The laws keep the output on the empty word**, and every failure. -/
theorem Law.emptyWord_eq (h : Law e f) : e.emptyWord = f.emptyWord := by
  cases h with
  | emit_nil e =>
    rw [emptyWord]
    rcases f.emptyWord with err | - | a
    · rfl
    · rfl
    · exact congrArg (fun o ↦ Except.ok (some o)) (List.append_nil a)
  | emit_literal word out s =>
    rw [emptyWord, emptyWord, emptyWord]
    cases word <;> rfl
  | emit_range r out s =>
    rw [emptyWord, emptyWord, emptyWord]
    split <;> rfl
  | emit_emit b out s =>
    rw [emptyWord, emptyWord, emptyWord]
    rcases b.emptyWord with err | - | a
    · rfl
    · rfl
    · exact congrArg (fun o ↦ Except.ok (some o)) (List.append_assoc a out s)
  | emit_concat l r s =>
    rw [emptyWord, emptyWord, emptyWord, emptyWord]
    rcases l.emptyWord with err | - | a
    · rfl
    · rcases r.emptyWord with err | - | b <;> rfl
    · rcases r.emptyWord with err | - | b
      · rfl
      · rfl
      · exact congrArg (fun o ↦ Except.ok (some o)) (List.append_assoc a b s)
  | empty_concat =>
    rw [emptyWord, emptyWord]
    rcases f.emptyWord with err | - | a <;> rfl
  | concat_empty l out =>
    rw [emptyWord, emptyWord, emptyWord]
    rcases l.emptyWord with err | - | a <;> rfl
  | literal_literal u v out s =>
    rw [emptyWord, emptyWord, emptyWord, emptyWord]
    cases u <;> cases v <;> rfl
  | empty_range out r s =>
    rw [emptyWord, emptyWord, emptyWord, emptyWord]
    by_cases hr : r.IsEmpty
    · rw [if_pos hr]
      rfl
    · rw [if_neg hr]
      rfl

/-- **Rewriting keeps the outcome on the empty word**, up to the ends that unions have lost. -/
theorem Rewrites.emptyWord (h : Rewrites e f) : SameOutcome e.emptyWord f.emptyWord := by
  induction h with
  | refl e => exact .refl _
  | trans _ _ ih ih' => exact ih.trans ih'
  | law hlaw => exact hlaw.emptyWord_eq ▸ .refl _
  | symm hlaw => exact hlaw.emptyWord_eq ▸ .refl _
  | hoist l r s =>
    simp only [Expr.emptyWord]
    rcases l.emptyWord with err | a
    · exact .refl _
    rcases r.emptyWord with err | b
    · exact .refl _
    exact emptyUnion_append a b s
  | union _ _ ihl ihr => exact ihl.bind fun a ↦ ihr.bind fun b ↦ .refl _
  | concat _ _ ihl ihr => exact ihl.bind fun a ↦ ihr.bind fun b ↦ .refl _
  | star _ ih => exact ih.bind fun a ↦ .refl _
  | emit _ out ih => exact ih.bind fun a ↦ .refl _

end Expr

end Transduction
