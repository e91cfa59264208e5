import Transduction.Proofs.Platform.Counting
import Transduction.Proofs.PositionGraph.Shift

/-!
# Machines that fit

A graph whose numbers stay in a word has a row for each of them, so its machine is laid out if there
is room for the rows (`layOut?_of_lt`). Numbering from a greater number on makes the rows more and
changes nothing else. So wherever a program that stops at the end of a word has a machine, every
program has it, it is the shifted machine of the expression, and the expression has its machine when
it is numbered from zero, too (`machine?_shift`).
-/

namespace Transduction.Platform

open PositionGraph Transducer

variable {P : Platform} {e : Expr} {g : PositionGraph} {n stop : StateId}

/-! ### Rows -/

/-- The greatest number of a graph stands right before its bound. -/
theorem max?_ids (g : PositionGraph) : ∃ last, g.ids.max? = some last ∧ g.bound = last + 1 := by
  obtain ⟨last, hlast⟩ := Option.ne_none_iff_exists'.1 (mt List.max?_eq_none_iff.1 (ids_ne_nil g))
  refine ⟨last, hlast, ?_⟩
  obtain ⟨hmem, hle⟩ := List.max?_eq_some_iff.1 hlast
  exact Nat.le_antisymm (bound_le fun s hs ↦ Nat.lt_succ_of_le (hle s hs)) (lt_bound hmem)

/-- Each number has a row, as long as they stay in a word. -/
theorem slots?_of_lt (h : g.bound < P.size) : P.slots? g = some g.bound := by
  obtain ⟨last, hlast, hbound⟩ := max?_ids g
  rw [slots?, hlast]
  show P.next? last = some g.bound
  rw [hbound] at h ⊢
  rw [next?, if_pos h]

/-- **A graph is laid out** if there is room for the rows. -/
theorem layOut?_of_lt (h : g.bound < P.room) : P.layOut? g = some (ofGraph g) := by
  rw [layOut?, slots?_of_lt (Nat.lt_trans h P.room_lt)]
  show (if g.bound ≤ g.bound ∧ g.bound < P.room then _ else none) = _
  rw [if_pos ⟨Nat.le_refl _, h⟩]

/-- A graph is laid out as it is, and only if there is room for the rows. -/
theorem layOut?_eq_some (h : g.bound < P.size) {m : Transducer} (hm : P.layOut? g = some m) :
    g.bound < P.room ∧ ofGraph g = m := by
  rw [layOut?, slots?_of_lt h] at hm
  replace hm : (if g.bound ≤ g.bound ∧ g.bound < P.room then some (ofGraph g) else none) = some m :=
    hm
  split at hm
  · rename_i hroom
    exact ⟨hroom.2, Option.some.inj hm⟩
  · cases hm

/-! ### Machines -/

/-- A failure is passed on as it is. -/
theorem map_eq_error {ε α β : Type} {f : α → β} {x : Except ε α} {err : ε} :
    x.map f = .error err ↔ x = .error err := by
  cases x <;> simp [Except.map]

/-- An expression has its machine where the counter stays in the word and there is room for the
rows. -/
theorem machine?_of_lt (hlt : ((build e).runFrom n).2 < P.size)
    (hroom : ∀ g, ((build e).runFrom n).1 = .ok g → g.bound < P.room) :
    P.machine? e n = some (((build e).runFrom n).1.map ofGraph) := by
  rw [machine?, (follows_number P e).runFrom_of_lt n hlt]
  rcases hrun : (build e).runFrom n with ⟨err | g, stop⟩
  · rfl
  · show (P.layOut? g).map Except.ok = _
    rw [layOut?_of_lt (hroom g (congrArg Prod.fst hrun))]
    rfl

/-- **A program that stops at the end of a word** has a machine only if the counter stays in the
word and there is room for the rows. -/
theorem of_machine?_checked (hn : n < P.size) {r : Except CompileError Transducer}
    (h : P.checked.machine? e n = some r) :
    ((build e).runFrom n).2 < P.size ∧ r = ((build e).runFrom n).1.map ofGraph ∧
      ∀ g, ((build e).runFrom n).1 = .ok g → g.bound < P.room := by
  obtain ⟨⟨outcome, stop⟩, hnumber, hr⟩ := Option.bind_eq_some_iff.1 h
  obtain ⟨hbuild, hlt⟩ := (follows_number P.checked e).eq_of_stop rfl hn hnumber
  rw [hbuild]
  refine ⟨hlt, ?_⟩
  rcases outcome with err | g
  · exact ⟨(Option.some.inj hr).symm, fun g hg ↦ by cases hg⟩
  · obtain ⟨m, hm, rfl⟩ := Option.map_eq_some_iff.1 hr
    have hbound : g.bound < P.checked.size := (bound_of_runFrom hbuild).symm ▸ hlt
    obtain ⟨hroom, rfl⟩ := layOut?_eq_some hbound hm
    refine ⟨rfl, fun g' hg' ↦ ?_⟩
    obtain rfl := Except.ok.inj hg'
    exact hroom

/-- Numbering from zero takes no more room than numbering from `n` on. -/
theorem machine?_zero (hlt : ((build e).runFrom n).2 < P.size)
    (hroom : ∀ g, ((build e).runFrom n).1 = .ok g → g.bound < P.room) :
    P.machine? e 0 = some e.compile := by
  have hadd := build_runFrom_add e 0 n
  rw [Nat.zero_add] at hadd
  have hle : ((build e).runFrom 0).2 ≤ ((build e).runFrom n).2 := by
    rw [hadd]
    exact Nat.le_add_right _ n
  refine machine?_of_lt (Nat.lt_of_le_of_lt hle hlt) fun g hg ↦ ?_
  have hshifted : ((build e).runFrom n).1 = .ok (g.renumber (· + n)) := by
    rw [hadd, Prod.map_fst, hg]
    rfl
  have hbound := hroom _ hshifted
  rw [bound_renumber_add] at hbound
  exact Nat.lt_of_le_of_lt (Nat.le_add_left g.bound n) hbound

/-- **Numbering from any number on only shifts the states, unless the counter overflows.** A program
that stops at the end of a word has an outcome if the numbers and the rows of all occurrences fit.
Where it has one, the counter does not overflow, and every program has the same, from zero too. It
fails as the expression does when it is compiled. Otherwise its machine is the compiled one behind
states that have no edges and do not accept; every word has the same answer, and so has the check
under any limit, where failures name the shifted states. -/
theorem machine?_shift (P : Platform) (hn : n < P.size) (e : Expr) :
    (n + e.occurrences < P.room → ∃ r, P.checked.machine? e n = some r) ∧
    ∀ r, P.checked.machine? e n = some r → P.machine? e n = some r ∧
      P.machine? e 0 = some e.compile ∧
      (∀ err, r = .error err ↔ e.compile = .error err) ∧
      ∀ m', r = .ok m' → ∃ m, e.compile = .ok m ∧ m' = m.shift n ∧
        (∀ s < n, m'.edges s = #[] ∧ m'.final? s = none) ∧
        (∀ w, m'.evaluate w = (m.evaluate w).mapError (·.renumber (· + n))) ∧
        ∀ limit, m'.checkFunctionalWithin limit =
          (m.checkFunctionalWithin limit).mapError (·.renumber (· + n)) := by
  constructor
  · intro hfits
    -- no more numbers are taken than there are occurrences
    have hlt : ((build e).runFrom n).2 < P.room :=
      Nat.lt_of_le_of_lt (takesAtMost_build e n).2 hfits
    have hroom : ∀ g, ((build e).runFrom n).1 = .ok g → g.bound < P.checked.room := fun g hg ↦
      (bound_of_runFrom (Prod.ext hg rfl)).symm ▸ hlt
    exact ⟨_, machine?_of_lt (Nat.lt_trans hlt P.room_lt) hroom⟩
  · intro r hr
    -- an answer of the checked counter is that of the counter without an end
    obtain ⟨hlt, rfl, hroom⟩ := of_machine?_checked hn hr
    obtain ⟨herr, hok⟩ := build_runFrom_shift e n
    refine ⟨machine?_of_lt hlt hroom, machine?_zero hlt hroom, fun err ↦ ?_, fun m' hm' ↦ ?_⟩
    · rw [Expr.compile, map_eq_error, map_eq_error]
      exact herr err
    · rcases hg : ((build e).runFrom n).1 with err | g <;> rw [hg] at hm'
      · cases hm'
      · obtain rfl := Except.ok.inj hm'
        exact hok g hg

/-- A machine that refuses a word and does not pass the check, numbered from five on: both failures
name the same states as before, five numbers further on. -/
theorem nested_shifted : ∃ m, (bits64 .wrap).machine? Expr.nested 5 = some (.ok m) ∧
    m = Expr.nestedMachine.shift 5 ∧ m.edges 4 = #[] ∧
    m.evaluate [97, 97] = .error (.paths 2 5 5 5) ∧
    m.checkFunctional = .error (.transitions 6 6 6 98) := by
  have hcompile : Expr.nested.compile = .ok Expr.nestedMachine := by decide +kernel
  have hanswer : Expr.nestedMachine.evaluate [97, 97] = .error (.paths 2 0 0 0) := by
    decide +kernel
  have hcheck : Expr.nestedMachine.checkFunctional = .error (.transitions 1 1 1 98) := by
    decide +kernel
  have hn : 5 < (bits64 .wrap).size := by decide
  obtain ⟨r, hr⟩ := (machine?_shift (bits64 .wrap) hn Expr.nested).1 (by decide)
  obtain ⟨hsame, -, herr, hok⟩ := (machine?_shift (bits64 .wrap) hn Expr.nested).2 r hr
  rcases r with err | m'
  · have hfails := (herr err).1 rfl
    rw [hcompile] at hfails
    cases hfails
  · obtain ⟨m, hm, hshift, hfront, heval, hverdict⟩ := hok m' rfl
    obtain rfl : Expr.nestedMachine = m := Except.ok.inj (hcompile.symm.trans hm)
    refine ⟨m', hsame, hshift, (hfront 4 (by decide)).1, ?_, ?_⟩
    · rw [heval, hanswer]
      rfl
    · rw [checkFunctional, hverdict none, ← checkFunctional, hcheck]
      rfl

/-- A literal of one symbol at the greatest number of a word. A program that stops there does not
number it. Otherwise it has a graph, but the number after the greatest one is zero, so there are no
rows and there is no machine. From zero the literal has its machine. -/
theorem machine_overflow :
    (bits64 .stop).machine? (.text "a" []) (2 ^ 64 - 1) = none ∧
    (∃ g, ((bits64 .wrap).number (.text "a" [])).runFrom (2 ^ 64 - 1) = some (.ok g, 0) ∧
      (bits64 .wrap).layOut? g = none) ∧
    (bits64 .wrap).machine? (.text "a" []) (2 ^ 64 - 1) = none ∧
    ∃ m, (bits64 .stop).machine? (.text "a" []) 0 = some (.ok m) ∧
      (bits64 .wrap).machine? (.text "a" []) 0 = some (.ok m) :=
  ⟨rfl, ⟨_, rfl, by decide⟩, by decide, _, rfl, rfl⟩

end Transduction.Platform
