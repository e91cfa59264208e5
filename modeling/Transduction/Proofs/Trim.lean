import Transduction.Proofs.Compile
import Transduction.Proofs.PositionGraph.Renumbering
import Transduction.Transducer.Trim

/-!
# Compiled machines are trim and local

Every state of a compiled machine is the initial state or an occurrence of the expression, and the
expression says which (`trim_of_compile`).

The occurrences of empty literals are there for the numbers only: they are no first states and no
last states, and no passage leads from or to them. All others lie on an accepting computation. This
rests on the fact that every expression that has a machine accepts some word, so what is missing of
a word on either side of an occurrence can always be read (`exists_reading_through`): a state that
reads something can be entered, and the graph can be left from it (`visits_ofGraph`).
-/

namespace Transduction

namespace PositionGraph

open Transducer

variable {g : PositionGraph} {e : Expr} {n : StateId} {s : StateId}

/-- **A state that reads something lies on an accepting computation.** -/
theorem visits_ofGraph (hg : g.Coherent) (hs : s ∈ g.readers) : (ofGraph g).Visits s := by
  obtain ⟨u, henters⟩ := exists_enters hg hs
  obtain ⟨v, ss, o, hleaves⟩ := exists_leaves hg hs
  obtain ⟨is, p, hreach⟩ := henters.exists_run hg
  have hids := (readers_sublist_ids g).subset hs
  obtain ⟨js, t, q, f, hrun, hf, -, -⟩ := hleaves.exists_run hg hids
  exact ⟨u, v, is, js, p, q, t, f, hreach, hrun, hf⟩

/-- An edge reads what the expression says of the place that it leads to. -/
theorem getElem?_occurrenceRanges_target (h : (build e).runFrom 0 = (.ok g, n)) {d : Edge}
    (hd : d ∈ (ofGraph g).edges s) : e.occurrenceRanges[d.target]? = some (some d.range) := by
  have hg := coherent_of_build h
  obtain ⟨c, hc, hrange⟩ := range_eq_of_mem_edges hg hd
  rw [hrange]
  exact getElem?_occurrenceRanges_of_mem_ranges h ((rangeOf?_eq_some_iff hg).1 hc)

/-- **The machine of a numbered expression is trim and local.** -/
theorem trim_ofGraph (h : (build e).runFrom 0 = (.ok g, n)) :
    (ofGraph g).Trim e.occurrenceRanges where
  size_eq := by rw [size_ofGraph, bound_of_build h]
  initial_eq := bound_of_build h
  isolated s hs := by
    have hreaders : s ∉ g.readers := by
      intro hmem
      obtain ⟨r, hr⟩ := (mem_readers_iff_of_build h).1 hmem
      cases hs.symm.trans hr
    -- the initial state is behind all occurrences
    have hbound : s ≠ g.bound := by
      rintro rfl
      rw [bound_of_build h, List.getElem?_eq_none (Nat.le_refl _)] at hs
      cases hs
    refine ⟨edges_eq_empty (coherent_of_build h) hreaders hbound, fun t d hd htarget ↦ ?_,
      PositionGraph.final?_eq_none (coherent_of_build h) hreaders hbound⟩
    exact hreaders (htarget ▸ target_mem_readers (coherent_of_build h) hd)
  target_ne_initial s d hd := by
    have hreader := target_mem_readers (coherent_of_build h) hd
    exact Nat.ne_of_lt (lt_bound ((readers_sublist_ids g).subset hreader))
  range_eq s d hd := getElem?_occurrenceRanges_target h hd
  visits s r hr := visits_ofGraph (coherent_of_build h) ((mem_readers_iff_of_build h).2 ⟨r, hr⟩)

end PositionGraph

namespace Expr

/-- **Compiled machines are trim and local.** A state that stands for an empty literal has no edge
in or out and does not accept; no edge leads to the initial state; all edges into a state read the
symbols of that state; and every other occurrence lies on an accepting computation. -/
theorem trim_of_compile {e : Expr} {m : Transducer} (h : e.compile = .ok m) :
    m.Trim e.occurrenceRanges := by
  obtain ⟨g, n, hbuild, rfl⟩ := compile_eq_ok h
  exact PositionGraph.trim_ofGraph hbuild

/-- The occurrence of the empty literal is a state by itself; the other two states lie on the way
from the initial state to acceptance. -/
theorem rounds_trim :
    rounds.compile = .ok roundsMachine ∧
      rounds.occurrenceRanges = [some (.single 97), some ⟨98, 99⟩, none] ∧
      roundsMachine.Trim rounds.occurrenceRanges := by
  have hcompile : rounds.compile = .ok roundsMachine := by decide +kernel
  exact ⟨hcompile, by decide, trim_of_compile hcompile⟩

end Expr

end Transduction
