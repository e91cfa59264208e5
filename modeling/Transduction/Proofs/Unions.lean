import Transduction.Proofs.Compile
import Transduction.Proofs.PositionGraph.Alike
import Transduction.Proofs.PositionGraph.Relabelling
import Transduction.Proofs.PositionGraph.Renumbering

/-!
# Branches of unions

What can be observed of the branches of a union, and what cannot.

Their grouping cannot be observed. Three branches make a union if any two of them agree on the empty
word, and this is so in both groupings, although different outputs are compared (`agree_union_left`,
`agree_union_right`). The tables are then equal (`compile_union_assoc_iff`).

Their order can be observed in the table only. Branches that change places are numbered in another
order, which is an exchange of two blocks of numbers (`renumber_exchange_union`), and numbers of
states cannot be observed (`exists_relabelled_union_comm`).

Branches that overlap are never resolved silently. A word that both branches accept is read in each
of them, through states of that branch, and the branches share no state; so it has two computations,
whatever else there is in the branches (`exists_acceptingRuns_of_overlap`).
-/

namespace Transduction

namespace PositionGraph

variable {a b c l r g : PositionGraph} {e f : Expr} {k n n' : StateId} {o : Output}

/-! ### Branches that agree -/

/-- If both parts accept the empty word, they emit the same on it. -/
def Agree (l r : PositionGraph) : Prop :=
  ∀ p q, l.empty? = some p → r.empty? = some q → p = q

theorem Agree.symm (h : Agree l r) : Agree r l := fun p q hp hq ↦ (h q p hq hp).symm

/-- A union emits on the empty word what either branch does. -/
theorem empty?_union_eq_some_iff (h : Agree l r) :
    (union l r []).empty? = some o ↔ l.empty? = some o ∨ r.empty? = some o := by
  rw [empty?]
  rcases hl : l.empty? with - | p
  · simp
  · simp only [Option.some_or, Option.map_some, List.append_nil]
    exact (or_iff_left_of_imp fun hr ↦ congrArg some (h p o hl hr)).symm

/-- A union agrees with what both branches agree with. -/
theorem agree_union_left (h : Agree a b) : Agree (union a b []) c ↔ Agree a c ∧ Agree b c := by
  simp only [Agree, empty?_union_eq_some_iff h, or_imp, forall_and]

/-- A branch agrees with a union if it agrees with both branches of it. -/
theorem agree_union_right (h : Agree b c) : Agree a (union b c []) ↔ Agree a b ∧ Agree a c := by
  simp only [Agree, empty?_union_eq_some_iff h, or_imp, forall_and]

/-- Branches that agree make a union. -/
theorem unite_eq_ok (h : Agree l r) : unite l r = .ok (union l r []) := by
  rw [unite]
  split
  · next p q hp hq => rw [if_pos (h p q hp hq)]
  · rfl

/-- Branches that agree on the empty word are united. -/
theorem build_union_of_agree (hl : (build e).runFrom n = (.ok l, k))
    (hr : (build f).runFrom k = (.ok r, n')) (h : Agree l r) :
    (build (.union e f)).runFrom n = (.ok (union l r []), n') := by
  rw [build_union, hl]
  dsimp only
  rw [hr]
  dsimp only
  rw [unite_eq_ok h]

/-! ### Branches that change places -/

/-- The graph that is numbered from zero, under the numbers from `k` on. -/
theorem exists_build_zero (h : (build e).runFrom k = (.ok g, n)) :
    ∃ g₀ n₀, (build e).runFrom 0 = (.ok g₀, n₀) ∧ g = g₀.renumber (· + k) ∧ n = n₀ + k := by
  have hadd := build_runFrom_add e 0 k
  rw [Nat.zero_add, h] at hadd
  rcases hzero : (build e).runFrom 0 with ⟨err | g₀, n₀⟩
  · rw [hzero] at hadd
    cases hadd
  · rw [hzero] at hadd
    obtain ⟨hg, hn⟩ := Prod.mk.inj hadd
    exact ⟨g₀, n₀, rfl, Except.ok.inj hg, hn⟩

/-- All numbers that are given out are below the next free one. -/
theorem bound_eq_of_build (h : (build e).runFrom 0 = (.ok g, n)) : g.bound = n := by
  rw [bound_of_build h, Expr.length_occurrenceRanges, (ids_of_build h).2, Nat.zero_add]

/-- Exchanging the numbers of two branches gives the branches the numbers that they have in the
other order. -/
theorem renumber_exchange_union (hl : ∀ s ∈ l.ids, s < k) (hr : ∀ s ∈ r.ids, s < n) :
    (union l (r.renumber (· + k)) []).renumber (exchange k n) =
      union (l.renumber (· + n)) r [] := by
  have hleft : l.renumber (exchange k n) = l.renumber (· + n) :=
    renumber_congr fun s hs ↦ exchange_of_lt (hl s hs)
  have hright : r.renumber (exchange k n ∘ (· + k)) = r.renumber id :=
    renumber_congr fun s hs ↦ exchange_add_of_lt (hr s hs)
  rw [renumber, hleft, renumber_renumber, hright, renumber_id]

/-- **In the other order, a union has the same graph under exchanged numbers**, up to the order of
what it lists. -/
theorem exists_build_union_comm (h : (build (.union e f)).runFrom 0 = (.ok g, n)) :
    ∃ g' p q, (build (.union f e)).runFrom 0 = (.ok g', n) ∧ p + q = n ∧
      g'.Alike (g.renumber (exchange p q)) := by
  obtain ⟨l, k, r', hl, hr', rfl, hagree⟩ := build_union_eq_ok h
  obtain ⟨r, k', hr, rfl, rfl⟩ := exists_build_zero hr'
  -- now the right branch is numbered from zero, and the left one after it
  have hl' : (build e).runFrom k' = (.ok (l.renumber (· + k')), k + k') := by
    have hadd := build_runFrom_add e 0 k'
    rwa [Nat.zero_add, hl] at hadd
  have hagree' : Agree r (l.renumber (· + k')) := by
    rw [empty?_renumber] at hagree
    rw [Agree, empty?_renumber]
    exact Agree.symm hagree
  refine ⟨.union r (l.renumber (· + k')) [], k, k', ?_, Nat.add_comm k k', ?_⟩
  · rw [Nat.add_comm k' k]
    exact build_union_of_agree hr hl' hagree'
  · rw [renumber_exchange_union (fun s hs ↦ bound_eq_of_build hl ▸ lt_bound hs)
      fun s hs ↦ bound_eq_of_build hr ▸ lt_bound hs]
    exact alike_union_comm hagree'

end PositionGraph

namespace Expr

open PositionGraph Transducer

variable {a b c : Expr} {m : Transducer} {w : List Symbol}

/-! ### Grouping -/

/-- **Three branches have one table in both groupings**, or none in either. -/
theorem compile_union_assoc_iff :
    (union (union a b) c).compile = .ok m ↔ (union a (union b c)).compile = .ok m := by
  constructor
  · intro h
    obtain ⟨g, n, hbuild, rfl⟩ := compile_eq_ok h
    obtain ⟨gab, k', gc, hab, hc, rfl, houter⟩ := build_union_eq_ok hbuild
    obtain ⟨ga, k, gb, ha, hb, rfl, hinner⟩ := build_union_eq_ok hab
    obtain ⟨hac, hbc⟩ := (agree_union_left hinner).1 houter
    -- the three branches keep their numbers, and the checks of both unions are the same three
    have hbuild' := build_union_of_agree ha (build_union_of_agree hb hc hbc)
      ((agree_union_right hbc).2 ⟨hinner, hac⟩)
    have hmachine := (alike_union_assoc ga gb gc).ofGraph_eq (coherent_of_build hbuild)
    rw [compile_of_build hbuild', hmachine]
  · intro h
    obtain ⟨g, n, hbuild, rfl⟩ := compile_eq_ok h
    obtain ⟨ga, k, gbc, ha, hbc, rfl, houter⟩ := build_union_eq_ok hbuild
    obtain ⟨gb, k', gc, hb, hc, rfl, hinner⟩ := build_union_eq_ok hbc
    obtain ⟨hab, hac⟩ := (agree_union_right hinner).1 houter
    have hbuild' := build_union_of_agree (build_union_of_agree ha hb hab) hc
      ((agree_union_left hab).2 ⟨hac, hinner⟩)
    have hmachine := (alike_union_assoc ga gb gc).symm.ofGraph_eq (coherent_of_build hbuild)
    rw [compile_of_build hbuild', hmachine]

/-! ### Order -/

/-- **In the other order, the branches have the same machine under other numbers.** -/
theorem exists_relabelled_union_comm (h : (union a b).compile = .ok m) :
    ∃ m' ρ, (union b a).compile = .ok m' ∧ m.Relabelled m' ρ := by
  obtain ⟨g, n, hbuild, rfl⟩ := compile_eq_ok h
  obtain ⟨g', p, q, hbuild', rfl, halike⟩ := exists_build_union_comm hbuild
  have hbound : g.bound = p + q := bound_eq_of_build hbuild
  have hbound' : (g.renumber (exchange p q)).bound = p + q :=
    halike.bound_eq.symm.trans (bound_eq_of_build hbuild')
  have hrelabelled := relabelled_ofGraph (g := g) (exchange_injective p q)
    (by rw [hbound, hbound', exchange_of_le (Nat.le_refl _)])
    fun s ↦ by rw [hbound, hbound', exchange_lt_iff]
  rw [← halike.ofGraph_eq (coherent_of_build hbuild')] at hrelabelled
  exact ⟨_, _, compile_of_build hbuild', hrelabelled⟩

/-- **Grouping and order of branches cannot be observed.** Three branches have one table in both
groupings, or none in either. Two branches have a machine in both orders or in none; every word gets
the same output in both, or the same failure after as many symbols, and the check passes in both or
in none. -/
theorem union_regroup_and_swap (a b c : Expr) :
    (((∃ err, (union (union a b) c).compile = .error err) ∧
        ∃ err, (union a (union b c)).compile = .error err) ∨
      ∃ m, (union (union a b) c).compile = .ok m ∧ (union a (union b c)).compile = .ok m) ∧
    ((∃ m, (union a b).compile = .ok m) ↔ ∃ m', (union b a).compile = .ok m') ∧
    ∀ m m', (union a b).compile = .ok m → (union b a).compile = .ok m' →
      (∀ w, SameAnswer (m.evaluate w) (m'.evaluate w)) ∧
        (m.checkFunctional = .ok () ↔ m'.checkFunctional = .ok ()) := by
  have hswap : ∀ {a b : Expr}, (∃ m, (union a b).compile = .ok m) →
      ∃ m', (union b a).compile = .ok m' := by
    rintro a b ⟨m, hm⟩
    obtain ⟨m', -, hm', -⟩ := exists_relabelled_union_comm hm
    exact ⟨m', hm'⟩
  refine ⟨?_, ⟨hswap, hswap⟩, fun m m' hm hm' ↦ ?_⟩
  · rcases hleft : (union (union a b) c).compile with err | m
    · rcases hright : (union a (union b c)).compile with err' | m'
      · exact .inl ⟨⟨err, rfl⟩, err', rfl⟩
      · cases hleft.symm.trans (compile_union_assoc_iff.2 hright)
    · exact .inr ⟨m, rfl, compile_union_assoc_iff.1 hleft⟩
  · -- the swapped union is the same machine up to the numbers of its states
    obtain ⟨m'', ρ, hm'', hrelabelled⟩ := exists_relabelled_union_comm hm
    obtain rfl : m'' = m' := Except.ok.inj (hm''.symm.trans hm')
    exact ⟨hrelabelled.sameAnswer, hrelabelled.checkFunctional_eq_ok_iff⟩

/-- Any number of `a`. -/
def looping : Expr := star (text "a" ['x'])

/-- One symbol, `a` or `b`. -/
def single : Expr := range ⟨97, 98⟩ ['y']

/-- The branches have different numbers of edges, so the tables differ when the branches are
swapped, and the answers do not. -/
theorem looping_single_swap :
    ∃ m m', (union looping single).compile = .ok m ∧ (union single looping).compile = .ok m' ∧
      m ≠ m' ∧ (∀ w, SameAnswer (m.evaluate w) (m'.evaluate w)) ∧
        (m.checkFunctional = .ok () ↔ m'.checkFunctional = .ok ()) := by
  obtain ⟨-, -, hsame⟩ := union_regroup_and_swap looping single (empty [])
  exact ⟨_, _, rfl, rfl, by decide +kernel, hsame _ _ rfl rfl⟩

/-! ### Overlap -/

/-- **A word of both branches has two computations**, one through states of each branch. -/
theorem exists_acceptingRuns_of_overlap (h : (union a b).compile = .ok m) (hw : w ≠ [])
    (ha : a.Accepts w) (hb : b.Accepts w) :
    ∃ is js o p, m.AcceptingRun w is o ∧ m.AcceptingRun w js p ∧ is ≠ js := by
  obtain ⟨g, n, hbuild, rfl⟩ := compile_eq_ok h
  obtain ⟨ga, k, gb, hga, hgb, rfl, hagree⟩ := build_union_eq_ok hbuild
  have hdisj := disjoint_ids_of_build hga hgb
  have hg := coherent_of_build hbuild
  obtain ⟨ss, o, hleft⟩ := (accepts_iff hga).1 ha
  obtain ⟨ts, p, hright⟩ := (accepts_iff hgb).1 hb
  obtain ⟨is, his, hss⟩ := (reading_iff_acceptingRun hg).1
    ((reading_union_iff hdisj hagree).2 ⟨o, .inl hleft, rfl⟩)
  obtain ⟨js, hjs, hts⟩ := (reading_iff_acceptingRun hg).1
    ((reading_union_iff hdisj hagree).2 ⟨p, .inr hright, rfl⟩)
  refine ⟨is, js, _, _, his, hjs, ?_⟩
  rintro rfl
  -- the states that are entered would be states of both branches
  obtain rfl : ss = ts := hss.symm.trans hts
  rcases ss with - | ⟨s, ss⟩
  · have hlength := hleft.length_eq
    exact hw (List.length_eq_zero_iff.1 hlength.symm)
  · exact hdisj (hleft.subset_ids List.mem_cons_self) (hright.subset_ids List.mem_cons_self)

/-- **Branches that overlap are never resolved silently.** A word that is not empty and that both
branches accept is not answered, whether or not they emit the same, and the check fails. -/
theorem overlap_refused (h : (union a b).compile = .ok m) (hw : w ≠ [])
    (ha : a.Accepts w) (hb : b.Accepts w) :
    (∃ err, m.evaluate w = .error err) ∧ ∃ err, m.checkFunctional = .error err := by
  obtain ⟨is, js, o, p, his, hjs, hne⟩ := exists_acceptingRuns_of_overlap h hw ha hb
  have hanswer : ∃ err, m.evaluate w = .error err := by
    rcases heval : m.evaluate w with err | r
    · exact ⟨err, rfl⟩
    · exact absurd (acceptingRun_unique_of_evaluateWith heval his hjs) hne
  refine ⟨hanswer, ?_⟩
  obtain ⟨err, herr⟩ := hanswer
  rcases hcheck : m.checkFunctional with err' | ⟨⟩
  · exact ⟨err', rfl⟩
  · obtain ⟨r, hr⟩ := checkFunctional_eq_ok_iff_evaluate.1 hcheck w
    cases herr.symm.trans hr

/-- One `a` is a word of the loop and of the range, so it is refused, and so is the union. -/
theorem looping_single_refused :
    ∃ m, (union looping single).compile = .ok m ∧
      looping.Accepts [97] ∧ single.Accepts [97] ∧
      (∃ err, m.evaluate [97] = .error err) ∧ ∃ err, m.checkFunctional = .error err := by
  have hlooping : looping.Accepts [97] := ⟨['x'], .single ⟨rfl, rfl⟩⟩
  have hsingle : single.Accepts [97] := ⟨['y'], 97, by decide, rfl, rfl⟩
  exact ⟨_, rfl, hlooping, hsingle, overlap_refused rfl (by decide) hlooping hsingle⟩

end Expr

end Transduction
