import Transduction.Proofs.Transducer.Renumbering
import Transduction.Transducer.Evaluate
import Transduction.Transducer.Shift

/-!
# Answers under other numbers

A machine that is found in another one gives the answers of the other one, but for the numbers of
the states that a failure names.

An evaluation is followed step by step. What the one machine does with states, the other does with
the renumbered states, and it records the renumbered arrivals (`Embeds.advanceAll`). The edges have
the same indices, so the same outputs are read off the trellis (`Embeds.backtrack`).

The check fails in both machines at corresponding states, or in neither, as it does whenever states
keep their order (`Renumbers.sameVerdict`). The outputs in a failure are the final outputs of the
states that it names (`final?_of_checkFunctionalWithin`), so they are the same.
-/

namespace Transduction

variable {ρ : StateId → StateId}

/-! ### Renumbered trellises -/

namespace Trellis

/-- The trellis with renumbered arrivals. -/
def renumber (ρ : StateId → StateId) (t : Trellis) : Trellis :=
  ⟨t.columns.map (List.map (·.renumber ρ))⟩

theorem renumber_write (t : Trellis) (i : Nat) (column : List Arrival) :
    (t.write i column).renumber ρ = (t.renumber ρ).write i (column.map (·.renumber ρ)) := by
  have hsize : (t.renumber ρ).columns.size = t.columns.size := Array.size_map
  rw [write, write, hsize]
  split
  · exact congrArg Trellis.mk Array.map_setIfInBounds
  · exact congrArg Trellis.mk Array.map_push

/-- The arrival at a renumbered state is the renumbered arrival. -/
theorem arrivalAt?_renumber (hρ : ρ.Injective) (t : Trellis) (i : Nat) (s : StateId) :
    (t.renumber ρ).arrivalAt? i (ρ s) = (t.arrivalAt? i s).map (·.renumber ρ) := by
  have htarget : (fun a : Arrival ↦ decide (a.target = ρ s)) ∘ (fun a : Arrival ↦ a.renumber ρ) =
      fun a ↦ decide (a.target = s) :=
    funext fun a ↦ decide_eq_decide.2 hρ.eq_iff
  rw [arrivalAt?, arrivalAt?, renumber, Array.getElem?_map]
  rcases t.columns[i]? with - | column
  · rfl
  · rw [Option.map_some, Option.bind_some, Option.bind_some, List.find?_map, htarget]

end Trellis

namespace Transducer

variable {m m' : Transducer} {limit : Option Nat} {s t : StateId} {f g : Output}

/-! ### What a failure of the check shows -/

/-- **The outputs in a failure are those of the states that it names.** -/
theorem final?_of_checkFunctionalWithin
    (h : m.checkFunctionalWithin limit = .error (.acceptance s t f g)) :
    m.final? s = some f ∧ m.final? t = some g := by
  rw [checkFunctionalWithin] at h
  rcases hexp : m.explore limit with e | q
  · rw [hexp] at h
    obtain rfl : e = .acceptance s t f g := Except.error.inj h
    rcases m.searchInvariant_initial.conflict_of_exploreFrom_error hexp with
      ⟨n, -, hlimit⟩ | ⟨S, -, hacc | ⟨x, hadv⟩⟩
    · cases hlimit
    · obtain ⟨s', t', f', g', heq, -, ⟨-, hf⟩, -, hg⟩ := members_of_checkAcceptance hacc
      cases heq
      exact ⟨hf, hg⟩
    · obtain ⟨a, b, heq, -⟩ := arrivals_of_advance_error hadv
      cases heq
  · rw [hexp] at h
    cases h

namespace Embeds

variable (h : m.Embeds m' ρ)

include h

theorem injective : ρ.Injective := h.strictMono.injective

/-- Without outputs, the edges of a state are those of the embedded state. -/
theorem map_edges (s : StateId) :
    (m'.edges (ρ s)).toList.map (fun e ↦ (e.range, e.target)) =
      (m.edges s).toList.map fun e ↦ (e.range, ρ e.target) := by
  rw [h.edges, Array.toList_map, List.map_map]
  rfl

/-- A machine that is embedded with its outputs is renumbered. -/
theorem renumbers : m.Renumbers m' ρ where
  strictMono := h.strictMono
  lt_size := h.lt_size
  initial := h.initial
  edges s _ := h.map_edges s
  accepts s _ := congrArg Option.isSome (h.final? s)

/-! ### Evaluation -/

theorem arrivals (sources : List StateId) (x : Symbol) :
    m'.arrivals (sources.map ρ) x = (m.arrivals sources x).map (·.renumber ρ) :=
  arrivals_of_edges (fun s _ ↦ h.map_edges s) x

theorem accepting (states : List StateId) :
    m'.accepting (states.map ρ) = (m.accepting states).map (Prod.map ρ id) := by
  rw [Transducer.accepting, Transducer.accepting, List.filterMap_map, List.map_filterMap]
  refine List.filterMap_congr fun s _ ↦ ?_
  rw [Function.comp_apply, h.final?]
  cases m.final? s <;> rfl

/-- **The rest of a word is read in step.** -/
theorem advanceAll (position : Nat) (frontier : List StateId) (t : Trellis) (w : List Symbol) :
    m'.advanceAll position (frontier.map ρ) (t.renumber ρ) w =
      (((m.advanceAll position frontier t w).1.map (List.map ρ)).mapError (·.renumber ρ),
        (m.advanceAll position frontier t w).2.renumber ρ) := by
  induction w generalizing position frontier t with
  | nil => rfl
  | cons x w ih =>
    rw [Transducer.advanceAll, Transducer.advanceAll, h.arrivals, clash?_renumber h.injective]
    rcases clash? (m.arrivals frontier x) with - | ⟨a, b⟩
    · have htargets : ((m.arrivals frontier x).map (·.renumber ρ)).map (·.target) =
          ((m.arrivals frontier x).map (·.target)).map ρ := by
        rw [List.map_map, List.map_map]
        rfl
      rw [Option.map_none]
      dsimp only
      rw [htargets, ← Trellis.renumber_write, ih]
    · rfl

theorem soleAccepting? (frontier : List StateId) :
    m'.soleAccepting? (frontier.map ρ) =
      ((m.soleAccepting? frontier).map (Option.map (Prod.map ρ id))).mapError (·.renumber ρ) := by
  rw [Transducer.soleAccepting?, Transducer.soleAccepting?, h.accepting]
  rcases m.accepting frontier with - | ⟨x, - | ⟨y, l⟩⟩ <;> rfl

/-- **The same outputs are read off the trellis.** -/
theorem backtrack (t : Trellis) (s : StateId) (out : Output) (n : Nat) :
    m'.backtrack (t.renumber ρ) (ρ s) out n =
      (m.backtrack t s out n).mapError (·.renumber ρ) := by
  induction n generalizing s out with
  | zero =>
    rw [Transducer.backtrack, Transducer.backtrack, h.initial]
    by_cases hs : s = m.initial
    · rw [if_pos hs, if_pos (congrArg ρ hs)]
      rfl
    · rw [if_neg hs, if_neg (h.injective.ne hs)]
      rfl
  | succ n ih =>
    rw [Transducer.backtrack, Transducer.backtrack, Trellis.arrivalAt?_renumber h.injective]
    rcases t.arrivalAt? n s with - | a
    · rfl
    have hedge : (m'.edges (a.renumber ρ).source)[(a.renumber ρ).index]? =
        (m.edges a.source)[a.index]?.map (·.renumber ρ) := by
      rw [← Array.getElem?_map, ← h.edges]
      rfl
    rw [Option.map_some]
    dsimp only
    rw [hedge]
    rcases (m.edges a.source)[a.index]? with - | e
    · rfl
    · exact ih a.source (e.out ++ out)

/-- **The answer is the same**, whatever is left in the trellis, and so is the trellis behind it. -/
theorem evaluateWith (t : Trellis) (w : List Symbol) :
    m'.evaluateWith (t.renumber ρ) w =
      ((m.evaluateWith t w).1.mapError (·.renumber ρ), (m.evaluateWith t w).2.renumber ρ) := by
  have hread := h.advanceAll 0 [m.initial] t w
  rw [List.map_singleton, ← h.initial] at hread
  rw [Transducer.evaluateWith, Transducer.evaluateWith, hread]
  rcases m.advanceAll 0 [m.initial] t w with ⟨e | frontier, t'⟩
  · rfl
  dsimp only [Except.map, Except.mapError]
  rw [h.soleAccepting?]
  rcases m.soleAccepting? frontier with e | - | ⟨s, out⟩
  · rfl
  · rfl
  · dsimp only [Except.map, Except.mapError, Option.map_some, Prod.map, id_eq]
    rw [h.backtrack]
    cases m.backtrack t' s out w.length <;> rfl

/-- **A word has the same answer**, failures naming the renumbered states. -/
theorem evaluate (w : List Symbol) :
    m'.evaluate w = (m.evaluate w).mapError (·.renumber ρ) := by
  have hempty : Trellis.empty.renumber ρ = .empty := congrArg Trellis.mk Array.map_empty
  have hread := h.evaluateWith .empty w
  rw [hempty] at hread
  exact congrArg Prod.fst hread

/-! ### The check -/

/-- **The check has the same outcome** under any limit, failures naming the renumbered states. -/
theorem checkFunctionalWithin (limit : Option Nat) :
    m'.checkFunctionalWithin limit =
      (m.checkFunctionalWithin limit).mapError (·.renumber ρ) := by
  have hverdict := h.renumbers.sameVerdict limit
  rcases hm : m.checkFunctionalWithin limit with err | ⟨⟩
  all_goals rcases hm' : m'.checkFunctionalWithin limit with err' | ⟨⟩
  all_goals rw [hm, hm'] at hverdict
  · rcases hverdict with - | hsame
    rcases hsame with ⟨s, t, f, g, f', g'⟩ | _ | _
    · -- the outputs in the error are the final ones of the two states, which both machines share
      obtain ⟨hf, hg⟩ := final?_of_checkFunctionalWithin hm
      obtain ⟨hf', hg'⟩ := final?_of_checkFunctionalWithin hm'
      rw [h.final?] at hf' hg'
      obtain rfl : f = f' := Option.some.inj (hf.symm.trans hf')
      obtain rfl : g = g' := Option.some.inj (hg.symm.trans hg')
      rfl
    · rfl
    · rfl
  · cases hverdict
  · cases hverdict
  · rfl

end Embeds

end Transducer

end Transduction
