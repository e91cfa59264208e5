import Transduction.Proofs.Compile
import Transduction.Proofs.Expr.Denotation
import Transduction.Proofs.Expr.EmptyWord
import Transduction.Proofs.Expr.Size
import Transduction.Proofs.PositionGraph.Renumbering

/-!
# Normalisation and compilation

Normalisation is a rewriting (`rewrites_normalize`), so what rewriting keeps, normalisation keeps:
the output on the empty word, which decides whether there is a machine (`compile_eq_error_iff`); the
outline and what its places read, which are the skeleton of the machine (`Rewrites.skeleton_eq`);
and the outputs of all words (`Rewrites.denotes_iff`).

* An expression has a machine exactly when the normal one has, and otherwise fails in the same way,
  except that the two outputs of a union may have lost a common end (`compile_normalize_shortens`).
* The two machines give the same answers, failures included: the same output, or the same kind of
  failure after as many symbols (`compile_normalize_sameAnswer`).
* Their states are not the same, since normalisation drops empty literals, but the states of the
  normal machine are found in the other one under their old numbers (`compile_normalize_renumbers`).
  So the check has the same verdict, and if it fails it shows the same states under these numbers
  (`compile_normalize_sameVerdict`).
* The normal machine is no larger: it has as many states less as empty literals have vanished, and
  no edge more (`normalize_never_enlarges`).
-/

namespace Transduction.Expr

variable {e f : Expr} {m m' : Transducer}

/-! ### Failures -/

/-- **Rewriting keeps failures**, up to the ends that unions have lost. -/
theorem Rewrites.compile_eq_error (h : Rewrites e f) :
    ((∃ err, e.compile = .error err) ↔ ∃ err, f.compile = .error err) ∧
      ∀ err err', e.compile = .error err → f.compile = .error err' → err.Shortens err' := by
  simp only [compile_eq_error_iff]
  have hsame := h.emptyWord
  generalize e.emptyWord = x at hsame
  generalize f.emptyWord = y at hsame
  cases hsame with
  | ok a =>
    refine ⟨iff_of_false ?_ ?_, fun err err' he hf ↦ ?_⟩
    · rintro ⟨err, herr⟩
      cases herr
    · rintro ⟨err, herr⟩
      cases herr
    · cases he
  | error hshort =>
    refine ⟨⟨fun _ ↦ ⟨_, rfl⟩, fun _ ↦ ⟨_, rfl⟩⟩, fun err err' he hf ↦ ?_⟩
    cases he
    cases hf
    exact hshort

/-- **Normalisation keeps failures**: an expression has no machine exactly when the normal one has
none, and the failures are the same, or two branches have lost a common end. -/
theorem compile_normalize_shortens (e : Expr) :
    ((∃ err, e.compile = .error err) ↔ ∃ err, e.normalize.compile = .error err) ∧
      ∀ err err', e.compile = .error err → e.normalize.compile = .error err' →
        err.Shortens err' :=
  (rewrites_normalize e).compile_eq_error

/-- A union of which both branches accept the empty word, with outputs that differ but end alike. -/
def forked : Expr :=
  concat (text "a" ['p']) (union (empty ['x', 's']) (emit (star (text "b" [])) ['y', 's']))

/-- The outputs on the empty word end alike, so normalisation reports them without their common
end. -/
theorem forked_shortens :
    forked.compile = .error (.ambiguousUnion ['x', 's'] ['y', 's']) ∧
      forked.normalize.compile = .error (.ambiguousUnion ['x'] ['y']) ∧
      CompileError.Shortens (.ambiguousUnion ['x', 's'] ['y', 's'])
        (.ambiguousUnion ['x'] ['y']) := by
  have hcompile : forked.compile = .error (.ambiguousUnion ['x', 's'] ['y', 's']) := by
    decide +kernel
  have hnormal : forked.normalize.compile = .error (.ambiguousUnion ['x'] ['y']) := by
    decide +kernel
  exact ⟨hcompile, hnormal, (compile_normalize_shortens forked).2 _ _ hcompile hnormal⟩

/-! ### Answers -/

/-- **Rewriting keeps the skeleton.** -/
theorem Rewrites.skeleton_eq (h : Rewrites e f) : e.skeleton = f.skeleton := by
  rw [skeleton, skeleton, h.outline_eq, h.ranges_eq]

/-- Expressions with one skeleton that denote the same have machines that give the same answers. -/
theorem sameAnswer_of_skeleton_eq (hm : e.compile = .ok m) (hm' : f.compile = .ok m')
    (hskeleton : e.skeleton = f.skeleton) (hdenotes : ∀ w o, e.Denotes w o → f.Denotes w o)
    (w : List Symbol) : SameAnswer (m.evaluate w) (m'.evaluate w) := by
  obtain ⟨g, n, hbuild, rfl⟩ := compile_eq_ok hm
  obtain ⟨g', n', hbuild', rfl⟩ := compile_eq_ok hm'
  refine (hskeleton ▸ PositionGraph.fits_ofGraph hbuild).sameAnswer
    (PositionGraph.fits_ofGraph hbuild') fun is o hrun ↦ ?_
  have hword : e.Denotes w o := (PositionGraph.denotes_iff_acceptingRun hbuild).2 ⟨is, hrun⟩
  exact (PositionGraph.denotes_iff_acceptingRun hbuild').1 (hdenotes w o hword)

/-- **Normalisation keeps the answers**: the normal expression has a machine too, and every word has
the same output in it, or fails in the same way after as many symbols. -/
theorem compile_normalize_sameAnswer (h : e.compile = .ok m) :
    ∃ m', e.normalize.compile = .ok m' ∧
      ∀ w, SameAnswer (m.evaluate w) (m'.evaluate w) := by
  have hrewrites := rewrites_normalize e
  rcases hnormal : e.normalize.compile with err | m'
  · obtain ⟨err', herr⟩ := hrewrites.compile_eq_error.1.2 ⟨err, hnormal⟩
    cases herr.symm.trans h
  · exact ⟨m', rfl, sameAnswer_of_skeleton_eq h hnormal hrewrites.skeleton_eq
      fun w o ↦ (hrewrites.denotes_iff w o).1⟩

/-- The empty literal vanishes in the normal form, which has a state less and answers as before. -/
theorem rounds_sameAnswer :
    rounds.compile = .ok roundsMachine ∧
      ∃ m', rounds.normalize.compile = .ok m' ∧
        ∀ w, SameAnswer (roundsMachine.evaluate w) (m'.evaluate w) := by
  have hcompile : rounds.compile = .ok roundsMachine := by decide +kernel
  exact ⟨hcompile, compile_normalize_sameAnswer hcompile⟩

/-! ### Verdicts -/

variable {ρ : StateId → StateId}

/-- **The normal machine is the other one without some empty literals**, up to outputs. -/
theorem compile_normalize_renumbers (hm : e.compile = .ok m) (hm' : e.normalize.compile = .ok m')
    (hp : Picks ρ e.normalize.occurrenceRanges e.occurrenceRanges) : m'.Renumbers m ρ := by
  obtain ⟨g, n, hbuild, rfl⟩ := compile_eq_ok hm
  obtain ⟨g', n', hbuild', rfl⟩ := compile_eq_ok hm'
  exact PositionGraph.renumbers_ofGraph hp hbuild' hbuild (rewrites_normalize e).skeleton_eq.symm

/-- **Normalisation keeps the verdict**: both machines pass the check, or both fail it in the same
way. The states that are shown correspond if those that are left are given their old numbers. -/
theorem compile_normalize_sameVerdict (hm : e.compile = .ok m)
    (hm' : e.normalize.compile = .ok m') :
    (∃ ρ, Picks ρ e.normalize.occurrenceRanges e.occurrenceRanges) ∧
      ∀ ρ, Picks ρ e.normalize.occurrenceRanges e.occurrenceRanges →
        SameVerdict ρ m'.checkFunctional m.checkFunctional := by
  refine ⟨exists_picks_normalize e, fun ρ hp ↦ ?_⟩
  exact (compile_normalize_renumbers hm hm' hp).sameVerdict none

/-- An empty literal without output, then one of two branches that read the same. -/
def skipping : Expr :=
  concat (concat (empty []) (union (text "a" ['p']) (text "a" ['q']))) (text "b" [])

/-- The rows of the three letters of `skipping`, numbered from `s` on, and of the initial state. -/
def skippingRows (s : StateId) : List (List Edge × Option Output) :=
  [([⟨⟨98, 98⟩, s + 2, ['p']⟩], none), ([⟨⟨98, 98⟩, s + 2, ['q']⟩], none), ([], some []),
    ([⟨⟨97, 97⟩, s, []⟩, ⟨⟨97, 97⟩, s + 1, []⟩], none)]

/-- The table of `skipping`. Its first state is the occurrence of the empty literal. -/
def skippingMachine : Transducer :=
  .ofRows (([], none) :: skippingRows 1) 4 (by decide) (by decide)

/-- The table of the normal expression, without that occurrence. -/
def skippingNormalMachine : Transducer := .ofRows (skippingRows 0) 3 (by decide) (by decide)

/-- The empty literal vanishes, so all states have the number before their own, and so do those that
the verdict names. -/
theorem skipping_sameVerdict :
    skipping.compile = .ok skippingMachine ∧
      skipping.normalize.compile = .ok skippingNormalMachine ∧
      skippingMachine.checkFunctional = .error (.transitions 1 2 3 98) ∧
      skippingNormalMachine.checkFunctional = .error (.transitions 0 1 2 98) ∧
      ∃ ρ, Picks ρ skipping.normalize.occurrenceRanges skipping.occurrenceRanges ∧
        SameVerdict ρ skippingNormalMachine.checkFunctional skippingMachine.checkFunctional := by
  have hcompile : skipping.compile = .ok skippingMachine := by decide +kernel
  have hnormal : skipping.normalize.compile = .ok skippingNormalMachine := by decide +kernel
  obtain ⟨⟨ρ, hp⟩, hverdict⟩ := compile_normalize_sameVerdict hcompile hnormal
  exact ⟨hcompile, hnormal, by decide +kernel, by decide +kernel, ρ, hp, hverdict ρ hp⟩

/-! ### Sizes -/

/-- A machine has a state for each occurrence, and the initial one. -/
theorem size_of_compile (h : e.compile = .ok m) : m.size = e.occurrences + 1 := by
  obtain ⟨g, n, hbuild, rfl⟩ := compile_eq_ok h
  rw [PositionGraph.size_ofGraph, PositionGraph.bound_of_build hbuild, length_occurrenceRanges]

/-- The normal machine has as many states less as empty literals have vanished, and no edge more. -/
theorem exists_compile_normalize_size (h : e.compile = .ok m) :
    ∃ m', e.normalize.compile = .ok m' ∧ m'.size + e.absorbed = m.size ∧
      m'.edgeCount ≤ m.edgeCount := by
  rcases hnormal : e.normalize.compile with err | m'
  · obtain ⟨err', herr⟩ := (rewrites_normalize e).compile_eq_error.1.2 ⟨err, hnormal⟩
    cases herr.symm.trans h
  · obtain ⟨ρ, hp⟩ := exists_picks_normalize e
    refine ⟨m', rfl, ?_, (compile_normalize_renumbers h hnormal hp).edgeCount_le⟩
    have hoccurrences := occurrences_normalize e
    rw [size_of_compile h, size_of_compile hnormal]
    omega

/-- **Normalisation never enlarges an expression, and keeps what it reads.** The places that read
something are the same, in the same order. Of the occurrences only empty literals are dropped, as
many as vanish in sequences; and the text of all outputs only loses the common ends of branches,
what is left of it standing in the old order. The machine, if there is one, has as many states less
as empty literals are dropped, and no edge more. -/
theorem normalize_never_enlarges (e : Expr) :
    e.normalize.ranges = e.ranges ∧
      e.normalize.occurrences + e.absorbed = e.occurrences ∧
      e.normalize.emptyLiterals + e.absorbed = e.emptyLiterals ∧
      e.normalize.outputs.Sublist e.outputs ∧
      e.normalize.outputs.length + e.hoisted = e.outputs.length ∧
      ∀ m, e.compile = .ok m → ∃ m', e.normalize.compile = .ok m' ∧
        m'.size + e.absorbed = m.size ∧ m'.edgeCount ≤ m.edgeCount :=
  ⟨(rewrites_normalize e).ranges_eq.symm, occurrences_normalize e, emptyLiterals_normalize e,
    outputs_normalize_sublist e, length_outputs_normalize e,
    fun _ ↦ exists_compile_normalize_size⟩

/-- Two branches with a common end, one of which has it in an empty literal, and an empty literal
after them. -/
def trailing : Expr :=
  concat (union (text "a" ['p', 's']) (concat (text "b" ['q']) (empty ['s']))) (empty ['t'])

/-- The table of `trailing`. Its third and fourth states are the empty literals. -/
def trailingMachine : Transducer :=
  .ofRows [([], some ['p', 's', 't']), ([], some ['q', 's', 't']), ([], none), ([], none),
    ([⟨⟨97, 97⟩, 0, []⟩, ⟨⟨98, 98⟩, 1, []⟩], none)] 4 (by decide) (by decide)

/-- Both empty literals vanish, and the common end is emitted once instead of twice. -/
theorem trailing_never_enlarges :
    trailing.compile = .ok trailingMachine ∧
      trailing.normalize.outputs = ['p', 'q', 's', 't'] ∧
      trailing.outputs = ['p', 's', 'q', 's', 't'] ∧
      trailing.absorbed = 2 ∧ trailing.hoisted = 1 ∧
      ∃ m', trailing.normalize.compile = .ok m' ∧ m'.size + 2 = trailingMachine.size ∧
        m'.edgeCount ≤ trailingMachine.edgeCount := by
  have hcompile : trailing.compile = .ok trailingMachine := by decide +kernel
  obtain ⟨-, -, -, -, -, hsize⟩ := normalize_never_enlarges trailing
  exact ⟨hcompile, by decide, by decide, by decide, by decide, hsize _ hcompile⟩

end Transduction.Expr
