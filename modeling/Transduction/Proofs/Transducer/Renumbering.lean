import Mathlib.Algebra.Order.BigOperators.Group.Finset
import Mathlib.Data.List.Forall2
import Mathlib.Order.WellFounded
import Transduction.Proofs.Transducer.Exploration
import Transduction.Transducer.Renumbering

/-!
# Exploring a renumbered machine

A machine that is found in another one under other numbers is explored in step with it
(`Renumbers.explore`), so the check has the same verdict (`Renumbers.sameVerdict`). What one does,
the other does with the renumbered states:

* the arrivals of renumbered states are the renumbered arrivals, in the same order, so the first
  clash is the renumbered one (`Renumbers.arrivals`, `clash?_renumber`);
* the ranges of the edges are the same, so the same symbols are tried (`Renumbers.boundaries_eq`);
* a set is known to the one search exactly when its image is known to the other
  (`SearchImage.discover`), so both find their sets in the same order, and fail at the same one.

This needs that the order of states is kept: members are taken in ascending order, and a failure
names the first two that are concerned.

The other machine may have more states, hence more fuel. But the fuel of the smaller one is enough
for it, and then nothing is pending in either search (`exploreFrom_add`).
-/

namespace Transduction

variable {ρ : StateId → StateId}

/-! ### Outcomes in step -/

/-- Both succeed, with related results, or both fail in the same way. -/
inductive InStep {α β : Type} (ρ : StateId → StateId) (R : α → β → Prop) :
    Except AmbiguityError α → Except AmbiguityError β → Prop
  /-- Both succeed. -/
  | ok {a : α} {b : β} (related : R a b) : InStep ρ R (.ok a) (.ok b)
  /-- Both fail. -/
  | error {e e' : AmbiguityError} (renumbered : e.Renumbered ρ e') :
    InStep ρ R (.error e) (.error e')

/-- Two computations in turn stay in step if each of them does. -/
theorem InStep.bind {α β γ δ : Type} {R : α → β → Prop} {R' : γ → δ → Prop}
    {x : Except AmbiguityError α} {y : Except AmbiguityError β} {f : α → Except AmbiguityError γ}
    {g : β → Except AmbiguityError δ} (h : InStep ρ R x y)
    (hfg : ∀ a b, R a b → InStep ρ R' (f a) (g b)) : InStep ρ R' (x >>= f) (y >>= g) := by
  rcases h with hab | he
  · exact hfg _ _ hab
  · exact .error he

/-! ### Renumbered lists -/

/-- An ascending list that holds the renumbered elements of another one is that list renumbered. -/
theorem eq_map_of_strictMono {l k : List StateId} (hρ : StrictMono ρ)
    (hl : l.Pairwise (· < ·)) (hk : k.Pairwise (· < ·)) (hmem : ∀ t, t ∈ l ↔ ∃ s ∈ k, ρ s = t) :
    l = k.map ρ := by
  have hmap : (k.map ρ).Pairwise (· < ·) := hk.map ρ fun _ _ hst ↦ hρ hst
  have hperm : l.Perm (k.map ρ) :=
    (List.perm_ext_iff_of_nodup (hl.imp Nat.ne_of_lt) (hmap.imp Nat.ne_of_lt)).2 fun t ↦ by
      rw [hmem, List.mem_map]
  exact hperm.eq_of_pairwise (fun _ _ _ _ hab hba ↦ absurd hba (Nat.lt_asymm hab)) hl hmap

/-- The arrival under the new numbers. -/
def Arrival.renumber (ρ : StateId → StateId) (a : Arrival) : Arrival :=
  ⟨ρ a.source, a.index, ρ a.target⟩

/-- The same arrivals clash. -/
theorem clashAfter?_renumber (hρ : ρ.Injective) (seen l : List Arrival) :
    clashAfter? (seen.map (·.renumber ρ)) (l.map (·.renumber ρ)) =
      (clashAfter? seen l).map (Prod.map (·.renumber ρ) (·.renumber ρ)) := by
  induction l generalizing seen with
  | nil => rfl
  | cons a l ih =>
    have htarget : (fun b : Arrival ↦ decide (b.target = (a.renumber ρ).target)) ∘
        (fun b : Arrival ↦ b.renumber ρ) = fun b ↦ decide (b.target = a.target) :=
      funext fun b ↦ decide_eq_decide.2 hρ.eq_iff
    rw [List.map_cons, clashAfter?, clashAfter?, List.find?_map, htarget]
    cases hfind : seen.find? fun b ↦ decide (b.target = a.target) with
    | none => exact ih (a :: seen)
    | some b => rfl

/-- **The first clash of renumbered arrivals is the renumbered first clash.** -/
theorem clash?_renumber (hρ : ρ.Injective) (l : List Arrival) :
    clash? (l.map (·.renumber ρ)) =
      (clash? l).map (Prod.map (·.renumber ρ) (·.renumber ρ)) :=
  clashAfter?_renumber hρ [] l

namespace Transducer

variable {m m' : Transducer} {S S' T T' : StateSet} {q q' : Search} {limit : Option Nat}

/-- The matches of a state are found by the ranges of its edges. -/
theorem map_matching (m : Transducer) (s : StateId) (x : Symbol) {f : Edge → SymbolRange × StateId}
    (hf : ∀ e, (f e).1 = e.range) :
    (m.matching s x).map (fun e ↦ (f e.1, e.2)) =
      ((m.edges s).toList.map f).zipIdx.reverse.filter fun e ↦ x ∈ e.1.1 := by
  have hfilter : ((fun e : (SymbolRange × StateId) × Nat ↦ decide (x ∈ e.1.1)) ∘ Prod.map f id) =
      fun e : Edge × Nat ↦ decide (x ∈ e.1.range) :=
    funext fun e ↦ by rw [Function.comp_apply, Prod.map_fst, hf]
  rw [matching_eq_filter, List.zipIdx_map, ← List.map_reverse, List.filter_map, hfilter]
  rfl

/-- States with the renumbered edges have the renumbered arrivals. -/
theorem arrivals_of_edges {sources : List StateId}
    (h : ∀ s ∈ sources, (m'.edges (ρ s)).toList.map (fun e ↦ (e.range, e.target)) =
      (m.edges s).toList.map fun e ↦ (e.range, ρ e.target)) (x : Symbol) :
    m'.arrivals (sources.map ρ) x = (m.arrivals sources x).map (·.renumber ρ) := by
  rw [Transducer.arrivals, Transducer.arrivals, List.flatMap_map, List.map_flatMap]
  refine List.flatMap_congr fun s hs ↦ ?_
  have hmatching : (m'.matching (ρ s) x).map (fun e ↦ ((e.1.range, e.1.target), e.2)) =
      (m.matching s x).map fun e ↦ ((e.1.range, ρ e.1.target), e.2) := by
    have hleft := map_matching m' (ρ s) x (f := fun e ↦ (e.range, e.target)) fun _ ↦ rfl
    have hright := map_matching m s x (f := fun e ↦ (e.range, ρ e.target)) fun _ ↦ rfl
    rw [h s hs] at hleft
    exact hleft.trans hright.symm
  have harrivals := congrArg (List.map fun e : (SymbolRange × StateId) × Nat ↦
    (⟨ρ s, e.2, e.1.2⟩ : Arrival)) hmatching
  rw [List.map_map, List.map_map] at harrivals
  rw [List.map_map]
  exact harrivals

/-! ### Images of sets -/

/-- The set of the second machine holds the renumbered members of that of the first one. -/
structure Image (m m' : Transducer) (ρ : StateId → StateId) (S S' : StateSet) : Prop where
  /-- A set of states of the first machine. -/
  capacity : S.capacity = m.size
  /-- A set of states of the second machine. -/
  capacity' : S'.capacity = m'.size
  /-- The members are renumbered. -/
  members : S'.members = S.members.map ρ

theorem Image.lt_size (h : m.Image m' ρ S S') : ∀ s ∈ S.members, s < m.size :=
  fun s hs ↦ h.capacity ▸ S.lt_capacity s hs

/-- A set is empty exactly if its image is. -/
theorem Image.members_eq_nil_iff (h : m.Image m' ρ S S') :
    S.members = [] ↔ S'.members = [] := by
  rw [h.members, List.map_eq_nil_iff]

/-- Sets are equal exactly when their images are. -/
theorem Image.eq_iff (hρ : ρ.Injective) (hS : m.Image m' ρ S S') (hT : m.Image m' ρ T T') :
    S = T ↔ S' = T' := by
  constructor
  · rintro rfl
    refine StateSet.ext_mem (hS.capacity'.trans hT.capacity'.symm) fun s ↦ ?_
    rw [StateSet.mem_def, StateSet.mem_def, hS.members, hT.members]
  · rintro rfl
    have hmembers : S.members = T.members :=
      List.map_injective_iff.2 hρ (hS.members.symm.trans hT.members)
    refine StateSet.ext_mem (hS.capacity.trans hT.capacity.symm) fun s ↦ ?_
    rw [StateSet.mem_def, StateSet.mem_def, hmembers]

/-- The edges of a table are those of its states. -/
theorem edgeCount_eq (m : Transducer) :
    m.edgeCount = ∑ s ∈ Finset.range m.size, (m.edges s).size := by
  have hlists : m.edgeLists = (List.range m.size).map fun s ↦ (m.edges s).toList := by
    refine List.ext_getElem (by simp [edgeLists, size]) fun s hs hs' ↦ ?_
    have hlt : s < m.states.size := by simpa [edgeLists] using hs
    simp [edgeLists, edges, hlt]
  rw [edgeCount, hlists, List.length_flatten, List.map_map]
  rfl

namespace Renumbers

variable (h : m.Renumbers m' ρ)

include h

/-- The other machine has at least as many states. -/
theorem size_le : m.size ≤ m'.size := by
  have hlast : ρ (m.size - 1) < m'.size := h.lt_size _ (Nat.sub_one_lt_of_lt m.initial_lt)
  have hmono : m.size - 1 ≤ ρ (m.size - 1) := h.strictMono.le_apply
  exact Nat.le_of_pred_lt (Nat.lt_of_le_of_lt hmono hlast)

/-- **The other machine has at least as many edges.** -/
theorem edgeCount_le : m.edgeCount ≤ m'.edgeCount := by
  have hsize : ∀ s ∈ Finset.range m.size, (m.edges s).size = (m'.edges (ρ s)).size := by
    intro s hs
    simpa using (congrArg List.length (h.edges s (Finset.mem_range.1 hs))).symm
  have himage : (Finset.range m.size).image ρ ⊆ Finset.range m'.size := by
    intro t ht
    obtain ⟨s, hs, rfl⟩ := Finset.mem_image.1 ht
    exact Finset.mem_range.2 (h.lt_size s (Finset.mem_range.1 hs))
  calc
    m.edgeCount = ∑ s ∈ Finset.range m.size, (m'.edges (ρ s)).size := by
      rw [edgeCount_eq]
      exact Finset.sum_congr rfl hsize
    _ = ∑ t ∈ (Finset.range m.size).image ρ, (m'.edges t).size := by
      rw [Finset.sum_image h.strictMono.injective.injOn]
    _ ≤ ∑ t ∈ Finset.range m'.size, (m'.edges t).size := Finset.sum_le_sum_of_subset himage
    _ = m'.edgeCount := (edgeCount_eq m').symm

/-! ### One set of states -/

/-- **The arrivals from renumbered states are the renumbered arrivals.** -/
theorem arrivals {sources : List StateId} (hlt : ∀ s ∈ sources, s < m.size) (x : Symbol) :
    m'.arrivals (sources.map ρ) x = (m.arrivals sources x).map (·.renumber ρ) :=
  arrivals_of_edges (fun s hs ↦ h.edges s (hlt s hs)) x

/-- Renumbered states accept where the states do. -/
theorem forall₂_accepting {states : List StateId} (hlt : ∀ s ∈ states, s < m.size) :
    List.Forall₂ (fun x y ↦ y.1 = ρ x.1) (m.accepting states) (m'.accepting (states.map ρ)) := by
  induction states with
  | nil => exact .nil
  | cons s states ih =>
    obtain ⟨hs, hrest⟩ := List.forall_mem_cons.1 hlt
    have haccepts := h.accepts s hs
    have hrest := ih hrest
    rw [Transducer.accepting, Transducer.accepting] at hrest ⊢
    rw [List.map_cons, List.filterMap_cons, List.filterMap_cons]
    rcases hf : m.final? s with - | f <;> rcases hf' : m'.final? (ρ s) with - | f' <;>
      rw [hf, hf'] at haccepts
    · exact hrest
    · cases haccepts
    · cases haccepts
    · exact .cons rfl hrest

/-- A set and its image are both sound, or fail over corresponding states. -/
theorem checkAcceptance (hS : m.Image m' ρ S S') :
    InStep ρ (fun _ _ ↦ True) (m.checkAcceptance S) (m'.checkAcceptance S') := by
  have hforall := h.forall₂_accepting hS.lt_size
  rw [← hS.members] at hforall
  rw [Transducer.checkAcceptance, Transducer.checkAcceptance]
  generalize m.accepting S.members = l at hforall
  generalize m'.accepting S'.members = l' at hforall
  rcases hforall with - | ⟨hx, - | ⟨hy, hrest⟩⟩
  · exact .ok trivial
  · exact .ok trivial
  · dsimp only
    rw [hx, hy]
    exact .error (.acceptance _ _ _ _ _ _)

/-- **The same symbols are tried.** -/
theorem boundaries_eq (hS : m.Image m' ρ S S') : m'.boundaries S' = m.boundaries S := by
  have hranges : ∀ s ∈ S.members,
      (m'.edges (ρ s)).toList.map (·.range) = (m.edges s).toList.map (·.range) := by
    intro s hs
    have hedges := congrArg (List.map Prod.fst) (h.edges s (hS.lt_size s hs))
    rwa [List.map_map, List.map_map] at hedges
  rw [Transducer.boundaries, Transducer.boundaries, hS.members, List.flatMap_map]
  refine congrArg (fun l ↦ Ascending.distinct (0 :: l)) (List.flatMap_congr fun s hs ↦ ?_)
  have hbounds := congrArg (List.flatMap fun r : SymbolRange ↦ r.lower :: r.upper.next?.toList)
    (hranges s hs)
  rwa [List.flatMap_map, List.flatMap_map] at hbounds

/-- **A set and its image advance in step.** -/
theorem advance (hS : m.Image m' ρ S S') (x : Symbol) :
    InStep ρ (m.Image m' ρ) (m.advance S x) (m'.advance S' x) := by
  rw [Transducer.advance, Transducer.advance, hS.members, h.arrivals hS.lt_size,
    clash?_renumber h.strictMono.injective]
  rcases hclash : clash? (m.arrivals S.members x) with - | ⟨a, b⟩
  · refine .ok ⟨rfl, rfl, eq_map_of_strictMono h.strictMono (StateSet.ascending _)
      (StateSet.ascending _) fun t ↦ ?_⟩
    have hlt : ∀ a ∈ m.arrivals S.members x, a.target < m.size := by
      intro a ha
      obtain ⟨-, e, he, -, htarget⟩ := mem_arrivals.1 ha
      exact htarget ▸ target_lt_size he
    simp only [← StateSet.mem_def, StateSet.mem_ofList, List.map_map, List.mem_map]
    constructor
    · rintro ⟨⟨a, ha, rfl⟩, -⟩
      exact ⟨a.target, ⟨⟨a, ha, rfl⟩, hlt a ha⟩, rfl⟩
    · rintro ⟨_, ⟨⟨a, ha, rfl⟩, -⟩, rfl⟩
      exact ⟨⟨a, ha, rfl⟩, h.lt_size _ (hlt a ha)⟩
  · exact .error (.transitions _ _ _ _)

theorem image_initialSet : m.Image m' ρ m.initialSet m'.initialSet where
  capacity := rfl
  capacity' := rfl
  members := congrArg ([·]) h.initial

end Renumbers

/-! ### Searches in step -/

/-- The second search has found the images of the sets that the first one has found. -/
structure SearchImage (m m' : Transducer) (ρ : StateId → StateId) (q q' : Search) : Prop where
  /-- The images are pending, in the same order. -/
  pending : List.Forall₂ (m.Image m' ρ) q.pending q'.pending
  /-- A set is found exactly when its image is. -/
  mem_seen : ∀ {S S'}, m.Image m' ρ S S' → (S ∈ q.seen ↔ S' ∈ q'.seen)
  /-- As many sets are found. -/
  size : q.seen.size = q'.seen.size

namespace SearchImage

/-- A new set and its image are found together. -/
theorem insert (hρ : ρ.Injective) (hq : m.SearchImage m' ρ q q') (hS : m.Image m' ρ S S')
    (hnew : S ∉ q.seen) :
    m.SearchImage m' ρ ⟨q.seen.insert S, S :: q.pending⟩ ⟨q'.seen.insert S', S' :: q'.pending⟩ := by
  have hext := q.extends_insert hnew
  have hext' := q'.extends_insert (mt (hq.mem_seen hS).2 hnew)
  refine ⟨.cons hS hq.pending, fun {T T'} hT ↦ ?_, ?_⟩
  · rw [hext.mem_seen, hext'.mem_seen, List.mem_singleton, List.mem_singleton, hT.eq_iff hρ hS,
      hq.mem_seen hT]
  · rw [hext.size, hext'.size, hq.size]
    rfl

/-- **A set is discovered exactly when its image is.** -/
theorem discover (hρ : ρ.Injective) (hq : m.SearchImage m' ρ q q') (hS : m.Image m' ρ S S')
    (limit : Option Nat) :
    InStep ρ (m.SearchImage m' ρ) (q.discover limit S) (q'.discover limit S') := by
  have hiff : S.isEmpty ∨ S ∈ q.seen ↔ S'.isEmpty ∨ S' ∈ q'.seen := by
    rw [StateSet.isEmpty_iff, StateSet.isEmpty_iff, hS.members_eq_nil_iff, hq.mem_seen hS]
  rw [Search.discover.eq_def, Search.discover.eq_def]
  by_cases hknown : S.isEmpty ∨ S ∈ q.seen
  · rw [if_pos hknown, if_pos (hiff.1 hknown)]
    exact .ok hq
  · rw [if_neg hknown, if_neg (mt hiff.2 hknown)]
    have hinsert := hq.insert hρ hS (not_or.1 hknown).2
    rcases limit with - | n
    · exact .ok hinsert
    · dsimp only
      rw [hq.size]
      split
      · exact .error (.explorationLimit n)
      · exact .ok hinsert

end SearchImage

namespace Renumbers

variable (h : m.Renumbers m' ρ)

include h

/-- Symbol after symbol, both searches stay in step. -/
theorem foldlM (hS : m.Image m' ρ S S') (xs : List Symbol) (hq : m.SearchImage m' ρ q q') :
    InStep ρ (m.SearchImage m' ρ)
      (xs.foldlM (fun q x ↦ do q.discover limit (← m.advance S x)) q)
      (xs.foldlM (fun q x ↦ do q.discover limit (← m'.advance S' x)) q') := by
  induction xs generalizing q q' with
  | nil => exact .ok hq
  | cons x xs ih =>
    rw [List.foldlM_cons, List.foldlM_cons]
    have hstep := (h.advance hS x).bind fun _ _ hT ↦ hq.discover h.strictMono.injective hT limit
    exact hstep.bind fun _ _ hr ↦ ih hr

/-- **A set and its image are expanded in step.** -/
theorem expand (hS : m.Image m' ρ S S') (hq : m.SearchImage m' ρ q q') :
    InStep ρ (m.SearchImage m' ρ) (m.expand limit S q) (m'.expand limit S' q') := by
  rw [Transducer.expand, Transducer.expand, h.boundaries_eq hS]
  exact (h.checkAcceptance hS).bind fun _ _ _ ↦ h.foldlM hS _ hq

/-- **Searches stay in step**, whatever the fuel. -/
theorem exploreFrom (limit : Option Nat) (fuel : Nat) (hq : m.SearchImage m' ρ q q') :
    InStep ρ (m.SearchImage m' ρ) (m.exploreFrom limit fuel q) (m'.exploreFrom limit fuel q') := by
  induction fuel generalizing q q' with
  | zero => exact .ok hq
  | succ fuel ih =>
    rw [Transducer.exploreFrom, Transducer.exploreFrom]
    have hpending := hq.pending
    rcases hp : q.pending with - | ⟨S, rest⟩ <;> rcases hp' : q'.pending with - | ⟨S', rest'⟩ <;>
      rw [hp, hp'] at hpending
    · exact .ok hq
    · cases hpending
    · cases hpending
    · obtain ⟨hS, hrest⟩ := List.forall₂_cons.1 hpending
      have hq' : m.SearchImage m' ρ { q with pending := rest } { q' with pending := rest' } :=
        ⟨hrest, hq.mem_seen, hq.size⟩
      exact (h.expand hS hq').bind fun _ _ hr ↦ ih hr

theorem searchImage_initial :
    m.SearchImage m' ρ ⟨{m.initialSet}, [m.initialSet]⟩ ⟨{m'.initialSet}, [m'.initialSet]⟩ := by
  have hempty : m.SearchImage m' ρ ⟨∅, []⟩ ⟨∅, []⟩ :=
    ⟨.nil, fun _ ↦ iff_of_false Std.TreeSet.not_mem_emptyc Std.TreeSet.not_mem_emptyc, rfl⟩
  exact hempty.insert h.strictMono.injective h.image_initialSet Std.TreeSet.not_mem_emptyc

end Renumbers

/-! ### Fuel -/

/-- Fuel that is left over changes nothing. -/
theorem exploreFrom_add {fuel : Nat} (h : ∀ r, m.exploreFrom limit fuel q = .ok r → r.pending = [])
    (k : Nat) : m.exploreFrom limit (fuel + k) q = m.exploreFrom limit fuel q := by
  induction fuel generalizing q with
  | zero =>
    -- nothing is pending when the fuel ends, so more of it changes nothing
    have hpending : q.pending = [] := h q rfl
    rcases k with - | k
    · rfl
    · obtain ⟨seen, pending⟩ := q
      cases hpending
      rw [Nat.zero_add, exploreFrom, exploreFrom]
  | succ fuel ih =>
    rw [Nat.succ_add, exploreFrom, exploreFrom]
    rw [exploreFrom] at h
    rcases hp : q.pending with - | ⟨S, rest⟩
    · rfl
    · rw [hp] at h
      dsimp only
      rcases hexp : m.expand limit S { q with pending := rest } with e | r
      · rfl
      · refine ih fun r' hr' ↦ h r' ?_
        dsimp only
        rw [hexp]
        exact hr'

namespace Renumbers

variable (h : m.Renumbers m' ρ)

include h

/-- **The explorations stay in step**, although the other machine may have more fuel. -/
theorem explore (limit : Option Nat) :
    InStep ρ (m.SearchImage m' ρ) (m.explore limit) (m'.explore limit) := by
  have hsteps := h.exploreFrom limit (2 ^ m.size) h.searchImage_initial
  -- with the fuel of the smaller machine, nothing stays pending in its search, nor in the other
  have hdone : ∀ r', m'.exploreFrom limit (2 ^ m.size) ⟨{m'.initialSet}, [m'.initialSet]⟩ = .ok r' →
      r'.pending = [] := by
    intro r' hr'
    rw [hr'] at hsteps
    generalize hr : m.exploreFrom limit (2 ^ m.size) _ = x at hsteps
    rcases hsteps with himage | -
    have hpending := himage.pending
    rw [(searchInvariant_of_explore hr).2] at hpending
    exact List.forall₂_nil_left_iff.1 hpending
  have hfuel : m'.explore limit =
      m'.exploreFrom limit (2 ^ m.size) ⟨{m'.initialSet}, [m'.initialSet]⟩ := by
    obtain ⟨k, hk⟩ := Nat.exists_eq_add_of_le (Nat.pow_le_pow_right Nat.two_pos h.size_le)
    show m'.exploreFrom limit (2 ^ m'.size) _ = _
    rw [hk, exploreFrom_add hdone]
  rw [hfuel]
  exact hsteps

/-- **A renumbered machine has the same verdict**, under any limit. -/
theorem sameVerdict (limit : Option Nat) :
    SameVerdict ρ (m.checkFunctionalWithin limit) (m'.checkFunctionalWithin limit) := by
  have hsteps := h.explore limit
  rw [checkFunctionalWithin, checkFunctionalWithin]
  generalize m.explore limit = x at hsteps
  generalize m'.explore limit = y at hsteps
  rcases hsteps with - | he
  · exact .ok
  · exact .error he

end Renumbers

end Transducer

end Transduction
