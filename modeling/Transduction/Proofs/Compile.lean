import Transduction.Compile
import Transduction.Proofs.PositionGraph.EmptyWord
import Transduction.Proofs.PositionGraph.ParallelEdges

/-!
# Compiled expressions

What compilation promises, from the expression to the answers of its machine.

* An expression has a machine exactly when all its parts are sound: no variable, no range without
  symbols, and no part with two outputs on the empty word (`exists_compile_iff`).
* The computations of the machine are what the expression denotes, whether or not words have several
  of them (`denotes_iff_exists_acceptingRun`).
* The check decides whether the expression is unambiguous (`checkFunctional_iff_unambiguous`): its
  verdict is about the words that the parts of the expression accept, not about the table. It does
  not fail in vain: some word then has two accepting computations in the machine
  (`checkFunctional_iff_acceptingRun_unique`).
* Edges from one state to another have the same output (`parallel_edges_agree`), so they are no harm
  to what the machine emits, but each counts as a computation of its own.
* A machine that has passed the check answers every word with the output that the expression gives
  it, or with none if it gives none (`evaluate_of_compileFunctional`). In particular the expression
  gives no word two outputs.
-/

namespace Transduction.Expr

variable {e : Expr} {m : Transducer}

/-- A compiled expression is the machine of its graph, numbered from zero. -/
theorem compile_eq_ok (h : e.compile = .ok m) :
    ∃ g n, (PositionGraph.build e).runFrom 0 = (.ok g, n) ∧ m = Transducer.ofGraph g := by
  rw [compile] at h
  rcases hbuild : (PositionGraph.build e).runFrom 0 with ⟨err | g, n⟩
  · rw [hbuild] at h
    cases h
  · rw [hbuild] at h
    exact ⟨g, n, rfl, (Except.ok.inj h).symm⟩

/-- A graph that is numbered from zero is the graph of the compiled expression. -/
theorem compile_of_build {g : PositionGraph} {n : StateId}
    (h : (PositionGraph.build e).runFrom 0 = (.ok g, n)) :
    e.compile = .ok (Transducer.ofGraph g) := by
  rw [compile, h]
  rfl

/-- A functional machine is a compiled expression that passes the check. -/
theorem compileFunctional_eq_ok (h : e.compileFunctional = .ok m) :
    e.compile = .ok m ∧ m.checkFunctional = .ok () := by
  rw [compileFunctional] at h
  rcases hcompile : e.compile with err | m'
  · rw [hcompile] at h
    cases h
  · rw [hcompile] at h
    dsimp only at h
    rcases hcheck : m'.checkFunctional with err | ⟨⟩
    · rw [hcheck] at h
      cases h
    · rw [hcheck] at h
      cases h
      exact ⟨rfl, hcheck⟩

/-- Any number of rounds, each of which reads `a` or one of `b` and `c`, and then an output. -/
def rounds : Expr :=
  concat (star (emit (union (text "a" ['x']) (range ⟨98, 99⟩ [])) ['y'])) (empty ['z'])

/-- The table of `rounds`. The first two states are entered by `a` and by `b` or `c`; the third one
is the occurrence of the empty literal. -/
def roundsMachine : Transducer :=
  .ofRows [
    ([⟨⟨97, 97⟩, 0, ['x', 'y']⟩, ⟨⟨98, 99⟩, 1, ['x', 'y']⟩], some ['x', 'y', 'z']),
    ([⟨⟨97, 97⟩, 0, ['y']⟩, ⟨⟨98, 99⟩, 1, ['y']⟩], some ['y', 'z']),
    ([], none),
    ([⟨⟨97, 97⟩, 0, []⟩, ⟨⟨98, 99⟩, 1, []⟩], some ['z'])]
    3 (by decide) (by decide)

/-- A star around two stars. Over `a` the inner star goes on, or the outer one begins anew. -/
def nested : Expr :=
  emit (star (concat (star (text "a" ['x'])) (star (text "b" ['y'])))) ['z']

/-- The table of `nested`. The states of both letters have their loop twice. -/
def nestedMachine : Transducer :=
  .ofRows [
    ([⟨⟨97, 97⟩, 0, ['x']⟩, ⟨⟨97, 97⟩, 0, ['x']⟩, ⟨⟨98, 98⟩, 1, ['x']⟩, ⟨⟨98, 98⟩, 1, ['x']⟩],
      some ['x', 'z']),
    ([⟨⟨97, 97⟩, 0, ['y']⟩, ⟨⟨98, 98⟩, 1, ['y']⟩, ⟨⟨98, 98⟩, 1, ['y']⟩], some ['y', 'z']),
    ([⟨⟨97, 97⟩, 0, []⟩, ⟨⟨98, 98⟩, 1, []⟩], some ['z'])]
    2 (by decide) (by decide)

/-! ### What has a machine -/

/-- An expression fails to compile as the check of the empty word does. -/
theorem compile_eq_error_iff {err : CompileError} :
    e.compile = .error err ↔ e.emptyWord = .error err := by
  rw [compile, ← PositionGraph.map_empty?_build e 0]
  rcases ((PositionGraph.build e).runFrom 0).1 with err' | g
  · exact ⟨fun h ↦ congrArg _ (Except.error.inj h), fun h ↦ congrArg _ (Except.error.inj h)⟩
  · exact iff_of_false nofun nofun

/-- An expression has a machine where the check of the empty word succeeds. -/
theorem exists_compile_iff_emptyWord :
    (∃ m, e.compile = .ok m) ↔ ∃ a, e.emptyWord = .ok a := by
  rw [compile, ← PositionGraph.map_empty?_build e 0]
  rcases ((PositionGraph.build e).runFrom 0).1 with err | g
  · exact iff_of_false nofun nofun
  · exact iff_of_true ⟨_, rfl⟩ ⟨_, rfl⟩

/-- **The check of the empty word is exact**: an expression has a machine exactly when it has no
variable, no range without symbols, and no part with two outputs on the empty word. Its graph then
emits on the empty word what the expression denotes. -/
theorem exists_compile_iff (e : Expr) :
    ((∃ m, e.compile = .ok m) ↔
      (∀ name, var name ∉ e.parts) ∧ (∀ r out, range r out ∈ e.parts → ¬ r.IsEmpty) ∧
        ∀ p ∈ e.parts, ∀ o o', p.Denotes [] o → p.Denotes [] o' → o = o') ∧
    ∀ n g n', (PositionGraph.build e).runFrom n = (.ok g, n') →
      (∀ o, g.empty? = some o ↔ e.Denotes [] o) ∧ (g.empty? = none ↔ ¬ e.Accepts []) := by
  constructor
  · rw [exists_compile_iff_emptyWord, exists_emptyWord_iff_sound]
    constructor
    · intro h
      refine ⟨fun name hp ↦ ?_, fun r out hp ↦ ?_, fun p hp ↦ (h p hp).unique⟩
      · exact (h _ hp).not_var name rfl
      · exact (h _ hp).not_isEmpty r out rfl
    · rintro ⟨hvar, hrange, hunique⟩ p hp
      refine ⟨?_, ?_, hunique p hp⟩
      · rintro name rfl
        exact hvar name hp
      · rintro r out rfl
        exact hrange r out hp
  · intro n g n' hbuild
    have hsome : ∀ o, g.empty? = some o ↔ e.Denotes [] o :=
      fun o ↦ (PositionGraph.denotes_nil_iff hbuild).symm
    refine ⟨hsome, ?_⟩
    -- no output of the graph is no output of the expression
    rw [Option.eq_none_iff_forall_ne_some, Accepts, not_exists]
    exact forall_congr' fun o ↦ not_congr (hsome o)

/-- Two branches that accept the empty word with the same output, one of them in two parts. -/
def agreeing : Expr :=
  union (concat (empty ['x']) (emit (star (text "a" [])) ['y'])) (empty ['x', 'y'])

/-- Branches that agree on the empty word, though the one has its output in two parts, from an empty
literal and from what is added to a star: the expression has a machine. -/
theorem agreeing_exists_compile :
    (∃ m, agreeing.compile = .ok m) ∧
      (∀ p ∈ agreeing.parts, ∀ o o', p.Denotes [] o → p.Denotes [] o' → o = o') ∧
      agreeing.Denotes [] ['x', 'y'] := by
  obtain ⟨hmachine, hgraph⟩ := exists_compile_iff agreeing
  have hcompile : ∃ m, agreeing.compile = .ok m := ⟨_, rfl⟩
  exact ⟨hcompile, (hmachine.1 hcompile).2.2, ((hgraph 0 _ _ rfl).1 ['x', 'y']).1 rfl⟩

/-! ### What the machine emits -/

/-- **Compilation is correct**: a word has an output in an expression exactly when the machine has
an accepting computation over the word that emits it. -/
theorem denotes_iff_exists_acceptingRun (h : e.compile = .ok m) (w : List Symbol) (o : Output) :
    e.Denotes w o ↔ ∃ is, m.AcceptingRun w is o := by
  obtain ⟨g, n, hbuild, rfl⟩ := compile_eq_ok h
  exact PositionGraph.denotes_iff_acceptingRun hbuild

/-- Two rounds, the second one through the range: the word has an output in the expression, so there
is a computation that emits it. -/
theorem rounds_denotes_iff :
    rounds.compile = .ok roundsMachine ∧
      (rounds.Denotes [97, 99] ['x', 'y', 'y', 'z'] ↔
        ∃ is, roundsMachine.AcceptingRun [97, 99] is ['x', 'y', 'y', 'z']) := by
  have hcompile : rounds.compile = .ok roundsMachine := by decide +kernel
  exact ⟨hcompile, denotes_iff_exists_acceptingRun hcompile _ _⟩

/-- **Edges from one state to another agree** on what they read and on what they emit. -/
theorem parallel_edges_agree (h : e.compile = .ok m) {s : StateId} {i j : Nat} {d d' : Edge}
    (hd : (m.edges s)[i]? = some d) (hd' : (m.edges s)[j]? = some d')
    (htarget : d.target = d'.target) : d.range = d'.range ∧ d.out = d'.out := by
  obtain ⟨g, n, hbuild, rfl⟩ := compile_eq_ok h
  have heq : d = d' := PositionGraph.eq_of_mem_edges (PositionGraph.coherent_of_build hbuild)
    (Array.mem_of_getElem? hd) (Array.mem_of_getElem? hd') htarget
  rw [heq]
  exact ⟨rfl, rfl⟩

/-- A star in a star passes from its letter to the second letter in two ways, and both edges emit
the same. -/
theorem nested_parallel_edges_agree :
    nested.compile = .ok nestedMachine ∧
      ∃ d d', (nestedMachine.edges 0)[2]? = some d ∧ (nestedMachine.edges 0)[3]? = some d' ∧
        d.target = d'.target ∧ d.range = d'.range ∧ d.out = d'.out := by
  have hcompile : nested.compile = .ok nestedMachine := by decide +kernel
  exact ⟨hcompile, _, _, rfl, rfl, rfl,
    parallel_edges_agree (s := 0) (i := 2) (j := 3) hcompile rfl rfl rfl⟩

/-! ### What the check decides -/

/-- **The check decides unambiguity** of the expression that was compiled. -/
theorem checkFunctional_iff_unambiguous (h : e.compile = .ok m) :
    m.checkFunctional = .ok () ↔ e.Unambiguous := by
  obtain ⟨g, n, hbuild, rfl⟩ := compile_eq_ok h
  rw [Transducer.checkFunctional_eq_ok_iff,
    PositionGraph.conflictFree_ofGraph_iff (PositionGraph.coherent_of_build hbuild),
    PositionGraph.unambiguous_iff_of_build hbuild]

/-- An expression that is not ambiguous, with a star, a union, an added output and an empty literal:
its machine passes the check. -/
theorem rounds_unambiguous :
    rounds.compile = .ok roundsMachine ∧ roundsMachine.checkFunctional = .ok () ∧
      rounds.Unambiguous := by
  have hcompile : rounds.compile = .ok roundsMachine := by decide +kernel
  have hcheck : roundsMachine.checkFunctional = .ok () := by decide +kernel
  exact ⟨hcompile, hcheck, (checkFunctional_iff_unambiguous hcompile).1 hcheck⟩

/-- **The check does not fail in vain**: if it fails, some word has two accepting computations. So
it passes exactly when no word has. -/
theorem checkFunctional_iff_acceptingRun_unique (h : e.compile = .ok m) :
    (∀ err, m.checkFunctional = .error err →
        ∃ w is js o p, m.AcceptingRun w is o ∧ m.AcceptingRun w js p ∧ is ≠ js) ∧
      (m.checkFunctional = .ok () ↔
        ∀ w is js o p, m.AcceptingRun w is o → m.AcceptingRun w js p → is = js) := by
  obtain ⟨g, n, hbuild, rfl⟩ := compile_eq_ok h
  have hg := PositionGraph.coherent_of_build hbuild
  have hiff : (Transducer.ofGraph g).checkFunctional = .ok () ↔
      ∀ w is js o p, (Transducer.ofGraph g).AcceptingRun w is o →
        (Transducer.ofGraph g).AcceptingRun w js p → is = js := by
    rw [Transducer.checkFunctional_eq_ok_iff]
    exact Transducer.conflictFree_iff fun s d hd ↦ PositionGraph.live_target_ofGraph hg hd
  refine ⟨fun err herr ↦ ?_, hiff⟩
  -- a rejected machine without such a word would be free of conflicts, hence not rejected
  by_contra hnone
  have hunique : (Transducer.ofGraph g).checkFunctional = .ok () := by
    refine hiff.2 fun w is js o p his hjs ↦ ?_
    by_contra hne
    exact hnone ⟨w, is, js, o, p, his, hjs, hne⟩
  cases hunique.symm.trans herr

/-- A star in a star goes round in two ways: the check fails, and some word has two accepting
computations. -/
theorem nested_acceptingRun_not_unique :
    nested.compile = .ok nestedMachine ∧
      nestedMachine.checkFunctional = .error (.transitions 1 1 1 98) ∧
      ∃ w is js o p, nestedMachine.AcceptingRun w is o ∧ nestedMachine.AcceptingRun w js p ∧
        is ≠ js := by
  have hcompile : nested.compile = .ok nestedMachine := by decide +kernel
  have hcheck : nestedMachine.checkFunctional = .error (.transitions 1 1 1 98) := by decide +kernel
  exact ⟨hcompile, hcheck, (checkFunctional_iff_acceptingRun_unique hcompile).1 _ hcheck⟩

/-! ### What evaluation answers -/

/-- **A functional machine answers as the expression denotes**: every word is answered, with the
output of the word if it has one, and no word has two. -/
theorem evaluate_of_compileFunctional (h : e.compileFunctional = .ok m) (w : List Symbol) :
    (∃ r, m.evaluate w = .ok r) ∧
      (∀ o, m.evaluate w = .ok (some o) ↔ e.Denotes w o) ∧
      (m.evaluate w = .ok none ↔ ∀ o, ¬ e.Denotes w o) ∧
      ∀ o p, e.Denotes w o → e.Denotes w p → o = p := by
  obtain ⟨hcompile, hcheck⟩ := compileFunctional_eq_ok h
  obtain ⟨g, n, hbuild, rfl⟩ := compile_eq_ok hcompile
  have hm := Transducer.checkFunctional_eq_ok_iff.1 hcheck
  have hsome : ∀ o, (Transducer.ofGraph g).evaluate w = .ok (some o) ↔ e.Denotes w o := by
    intro o
    rw [PositionGraph.denotes_iff_acceptingRun hbuild]
    exact hm.evaluateWith_eq_some_iff .empty w o
  have hnone : (Transducer.ofGraph g).evaluate w = .ok none ↔ ∀ o, ¬ e.Denotes w o := by
    simp only [PositionGraph.denotes_iff_acceptingRun hbuild, not_exists]
    exact (hm.evaluateWith_eq_none_iff .empty w).trans forall_comm
  refine ⟨hm.exists_evaluateWith .empty w, hsome, hnone, fun o p ho hp ↦ ?_⟩
  have heq := ((hsome o).2 ho).symm.trans ((hsome p).2 hp)
  exact Option.some.inj (Except.ok.inj heq)

/-- The word takes one round through the literal and one through the range, so both branches of the
union are taken, and then the empty literal emits its output. -/
theorem rounds_evaluate :
    rounds.compileFunctional = .ok roundsMachine ∧
      (∃ r, roundsMachine.evaluate [97, 99] = .ok r) ∧
      (∀ o, roundsMachine.evaluate [97, 99] = .ok (some o) ↔ rounds.Denotes [97, 99] o) ∧
      (roundsMachine.evaluate [97, 99] = .ok none ↔ ∀ o, ¬ rounds.Denotes [97, 99] o) ∧
      ∀ o p, rounds.Denotes [97, 99] o → rounds.Denotes [97, 99] p → o = p := by
  have hcompile : rounds.compileFunctional = .ok roundsMachine := by decide +kernel
  exact ⟨hcompile, evaluate_of_compileFunctional hcompile _⟩

end Transduction.Expr
