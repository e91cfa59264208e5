import Mathlib.Data.Finset.Powerset
import Transduction.Proofs.Transducer.Advance

/-!
# The exploration

A search keeps an invariant (`SearchInvariant`): everything it has found can be active, and every
set it has found either waits to be expanded or has been expanded, its successors over all
boundaries being found. One expansion keeps it (`SearchInvariant.expand`), and so does the whole
exploration (`SearchInvariant.exploreFrom`).

**The fuel is enough.** Every expansion takes one set off the pending list, and a set comes onto the
list only when it is found, so the number of expansions is the number of found sets that are not
pending. There are at most `2 ^ size` sets of states (`SearchInvariant.size_le`), hence nothing is
pending when the fuel has run out.

When nothing is pending the found sets are closed under boundaries, hence under all symbols, so they
are the sets that can be active (`mem_seen_iff_reachable`). This gives both directions: an
exploration that succeeds leaves no conflict (`conflictFree_of_checkFunctionalWithin`), and one that
fails below its limit names a conflict in a set that can be active
(`SearchInvariant.conflict_of_exploreFrom_error`).
-/

namespace Transduction

/-! ### Outcomes in turn -/

section Outcome

variable {ε α β : Type} {x : Except ε α} {f : α → Except ε β}

/-- Two computations in turn succeed if both do. -/
theorem bind_eq_ok_iff {b : β} : x >>= f = .ok b ↔ ∃ a, x = .ok a ∧ f a = .ok b := by
  rcases x with e | a
  · exact iff_of_false nofun (fun ⟨a, ha, _⟩ ↦ nomatch ha)
  · exact ⟨fun h ↦ ⟨a, rfl, h⟩, fun ⟨_, ha, h⟩ ↦ Except.ok.inj ha ▸ h⟩

/-- Two computations in turn fail if the first one does, or the second one after it. -/
theorem bind_eq_error_iff {e : ε} :
    x >>= f = .error e ↔ x = .error e ∨ ∃ a, x = .ok a ∧ f a = .error e := by
  rcases x with e' | a
  · refine ⟨fun h ↦ ?_, fun h ↦ ?_⟩
    · exact .inl (congrArg Except.error (Except.error.inj h))
    · rcases h with h | ⟨a, ha, -⟩
      · exact congrArg Except.error (Except.error.inj h)
      · exact nomatch ha
  · refine ⟨fun h ↦ ?_, fun h ↦ ?_⟩
    · exact .inr ⟨a, rfl, h⟩
    · obtain ⟨a', ha, h⟩ := h.resolve_left nofun
      exact Except.ok.inj ha ▸ h

end Outcome

/-! ### Counting sets -/

/-- There are no more different sets with one capacity than sets of numbers below it. -/
theorem StateSet.length_le_two_pow {sets : List StateSet} {n : Nat} (hnodup : sets.Nodup)
    (hcapacity : ∀ S ∈ sets, S.capacity = n) : sets.length ≤ 2 ^ n := by
  -- a set is determined by its members, which are below its capacity
  have hinj : ∀ S ∈ sets, ∀ T ∈ sets, S.members.toFinset = T.members.toFinset → S = T := by
    intro S hS T hT heq
    refine StateSet.ext_mem ((hcapacity S hS).trans (hcapacity T hT).symm) fun s ↦ ?_
    rw [StateSet.mem_def, StateSet.mem_def, ← List.mem_toFinset, heq, List.mem_toFinset]
  have hsub : (sets.map fun S ↦ S.members.toFinset).toFinset ⊆ (Finset.range n).powerset := by
    intro A hA
    obtain ⟨S, hS, rfl⟩ := List.mem_map.1 (List.mem_toFinset.1 hA)
    refine Finset.mem_powerset.2 fun s hs ↦ Finset.mem_range.2 ?_
    exact hcapacity S hS ▸ S.lt_capacity s (List.mem_toFinset.1 hs)
  calc sets.length = (sets.map fun S ↦ S.members.toFinset).length := (List.length_map _).symm
    _ = (sets.map fun S ↦ S.members.toFinset).toFinset.card :=
        (List.toFinset_card_of_nodup (hnodup.map_on hinj)).symm
    _ ≤ (Finset.range n).powerset.card := Finset.card_le_card hsub
    _ = 2 ^ n := by rw [Finset.card_powerset, Finset.card_range]

/-- No found set is listed twice. -/
theorem Search.nodup_toList_seen (q : Search) : q.seen.toList.Nodup :=
  Std.TreeSet.distinct_toList.imp fun hne heq ↦ hne (Std.LawfulEqOrd.compare_eq_iff_eq.2 heq)

/-! ### Finding sets -/

namespace Search

/-- The search `q'` has found the sets `new` in addition to those of `q`, and has put them in front
of the pending list. -/
structure Extends (q q' : Search) (new : List StateSet) : Prop where
  /-- The new sets are pending. -/
  pending : q'.pending = new ++ q.pending
  /-- The new sets are found. -/
  mem_seen : ∀ S, S ∈ q'.seen ↔ S ∈ new ∨ S ∈ q.seen
  /-- No set is found twice. -/
  nodup : new.Nodup
  /-- The new sets had not been found before. -/
  fresh : ∀ S ∈ new, S ∉ q.seen
  /-- The number of sets found. -/
  size : q'.seen.size = q.seen.size + new.length

namespace Extends

variable {q q' q'' : Search} {new new' : List StateSet}

theorem refl (q : Search) : q.Extends q [] where
  pending := rfl
  mem_seen S := by simp
  nodup := .nil
  fresh S hS := absurd hS List.not_mem_nil
  size := rfl

/-- New sets of a later search stand in front. -/
theorem trans (h : q.Extends q' new) (h' : q'.Extends q'' new') :
    q.Extends q'' (new' ++ new) where
  pending := by rw [h'.pending, h.pending, List.append_assoc]
  mem_seen S := by rw [h'.mem_seen, h.mem_seen, List.mem_append, or_assoc]
  nodup := by
    refine List.nodup_append.2 ⟨h'.nodup, h.nodup, fun S hS T hT heq ↦ ?_⟩
    exact h'.fresh S hS ((h.mem_seen S).2 (.inl (heq ▸ hT)))
  fresh S hS := by
    rcases List.mem_append.1 hS with hS | hS
    · exact fun hseen ↦ h'.fresh S hS ((h.mem_seen S).2 (.inr hseen))
    · exact h.fresh S hS
  size := by rw [h'.size, h.size, List.length_append]; omega

/-- What has been found stays found. -/
theorem mono (h : q.Extends q' new) {S : StateSet} (hS : S ∈ q.seen) : S ∈ q'.seen :=
  (h.mem_seen S).2 (.inr hS)

theorem size_le (h : q.Extends q' new) : q.seen.size ≤ q'.seen.size := by
  rw [h.size]
  exact Nat.le_add_right _ _

end Extends

/-- A set that is new is found and pending. -/
theorem extends_insert (q : Search) {S : StateSet} (h : S ∉ q.seen) :
    q.Extends ⟨q.seen.insert S, S :: q.pending⟩ [S] where
  pending := rfl
  mem_seen T := by
    rw [Std.TreeSet.mem_insert, Std.LawfulEqOrd.compare_eq_iff_eq, List.mem_singleton, eq_comm]
  nodup := List.nodup_singleton S
  fresh T hT := List.mem_singleton.1 hT ▸ h
  size := by
    rw [Std.TreeSet.size_insert, if_neg (by rwa [Std.TreeSet.contains_iff_mem])]
    rfl

/-- A set that is empty or has been found is passed over. -/
theorem discover_of_known {q : Search} {S : StateSet} (h : S.members = [] ∨ S ∈ q.seen)
    (limit : Option Nat) : q.discover limit S = .ok q := by
  rw [discover.eq_def, if_pos (h.imp_left StateSet.isEmpty_iff.2)]

/-- A new set is found unless the limit has been reached. -/
theorem discover_of_new {q : Search} {S : StateSet} (hne : S.members ≠ []) (hnew : S ∉ q.seen)
    (limit : Option Nat) :
    q.discover limit S = .ok ⟨q.seen.insert S, S :: q.pending⟩ ∨
      ∃ n, limit = some n ∧ n ≤ q.seen.size ∧
        q.discover limit S = .error (.explorationLimit n) := by
  rw [discover.eq_def, if_neg (not_or.2 ⟨mt StateSet.isEmpty_iff.1 hne, hnew⟩)]
  cases limit with
  | none => exact .inl rfl
  | some n =>
    by_cases hn : n ≤ q.seen.size
    · exact .inr ⟨n, rfl, hn, if_pos hn⟩
    · exact .inl (if_neg hn)

/-- Discovering a set finds at most that set, and finds it unless it has no member. -/
theorem extends_of_discover {limit : Option Nat} {q q' : Search} {S : StateSet}
    (h : q.discover limit S = .ok q') :
    ∃ new, q.Extends q' new ∧ (∀ T ∈ new, T = S ∧ S.members ≠ []) ∧
      (S.members ≠ [] → S ∈ q'.seen) := by
  by_cases hknown : S.members = [] ∨ S ∈ q.seen
  · rw [discover_of_known hknown] at h
    cases h
    exact ⟨[], .refl q, fun T hT ↦ absurd hT List.not_mem_nil, hknown.resolve_left⟩
  · obtain ⟨hne, hnew⟩ := not_or.1 hknown
    rcases discover_of_new hne hnew limit with hok | ⟨n, -, -, herr⟩
    · cases hok.symm.trans h
      have hext := q.extends_insert hnew
      refine ⟨[S], hext, fun T hT ↦ ⟨List.mem_singleton.1 hT, hne⟩, fun _ ↦ ?_⟩
      exact (hext.mem_seen S).2 (.inl List.mem_cons_self)
    · cases herr.symm.trans h

/-- Discovering a set fails only at the limit. -/
theorem limit_of_discover_error {limit : Option Nat} {q : Search} {S : StateSet}
    {e : AmbiguityError} (h : q.discover limit S = .error e) :
    ∃ n, limit = some n ∧ e = .explorationLimit n := by
  by_cases hknown : S.members = [] ∨ S ∈ q.seen
  · cases (discover_of_known hknown limit).symm.trans h
  · obtain ⟨hne, hnew⟩ := not_or.1 hknown
    rcases discover_of_new hne hnew limit with hok | ⟨n, hn, -, herr⟩
    · cases hok.symm.trans h
    · exact ⟨n, hn, Except.error.inj (h.symm.trans herr)⟩

end Search

namespace Transducer

variable {m : Transducer} {limit : Option Nat} {q q' : Search}

/-! ### One expansion -/

/-- Trying some symbols from a set finds the nonempty sets that it advances to. -/
theorem extends_of_foldlM {S : StateSet} {xs : List Symbol}
    (h : xs.foldlM (fun q x ↦ do q.discover limit (← m.advance S x)) q = .ok q') :
    ∃ new, q.Extends q' new ∧
      (∀ T ∈ new, T.members ≠ [] ∧ ∃ x, m.advance S x = .ok T) ∧
      ∀ x ∈ xs, ∃ T, m.advance S x = .ok T ∧ (T.members ≠ [] → T ∈ q'.seen) := by
  induction xs generalizing q with
  | nil =>
    cases h
    exact ⟨[], .refl _, fun T hT ↦ absurd hT List.not_mem_nil, fun x hx ↦
      absurd hx List.not_mem_nil⟩
  | cons x xs ih =>
    rw [List.foldlM_cons] at h
    obtain ⟨r, hr, h⟩ := bind_eq_ok_iff.1 h
    obtain ⟨T, hadv, hdisc⟩ := bind_eq_ok_iff.1 hr
    obtain ⟨new, hext, hnew, hfound⟩ := Search.extends_of_discover hdisc
    obtain ⟨new', hext', hnew', hfound'⟩ := ih h
    refine ⟨new' ++ new, hext.trans hext', fun U hU ↦ ?_, fun y hy ↦ ?_⟩
    · rcases List.mem_append.1 hU with hU | hU
      · exact hnew' U hU
      · obtain ⟨rfl, hne⟩ := hnew U hU
        exact ⟨hne, x, hadv⟩
    · rcases List.mem_cons.1 hy with rfl | hy
      · -- what is found over `x` stays found while the other symbols are tried
        exact ⟨T, hadv, fun hne ↦ hext'.mono (hfound hne)⟩
      · exact hfound' y hy

/-- Trying some symbols from a set fails at the limit, or where the set does not advance. -/
theorem error_of_foldlM {S : StateSet} {xs : List Symbol} {e : AmbiguityError}
    (h : xs.foldlM (fun q x ↦ do q.discover limit (← m.advance S x)) q = .error e) :
    (∃ n, limit = some n ∧ e = .explorationLimit n) ∨ ∃ x, m.advance S x = .error e := by
  induction xs generalizing q with
  | nil => cases h
  | cons x xs ih =>
    rw [List.foldlM_cons] at h
    rcases bind_eq_error_iff.1 h with hr | ⟨r, -, h⟩
    · rcases bind_eq_error_iff.1 hr with hadv | ⟨T, -, hdisc⟩
      · exact .inr ⟨x, hadv⟩
      · exact .inl (Search.limit_of_discover_error hdisc)
    · exact ih h

/-- The set has been expanded: it accepts in one place at most, and every set that it advances to
over one of its boundaries is found. -/
def Expanded (m : Transducer) (q : Search) (S : StateSet) : Prop :=
  m.checkAcceptance S = .ok () ∧
    ∀ b ∈ m.boundaries S, ∃ T, m.advance S b = .ok T ∧ (T.members ≠ [] → T ∈ q.seen)

/-- What an expansion that succeeds does. -/
theorem expanded_of_expand {S : StateSet} (h : m.expand limit S q = .ok q') :
    m.Expanded q' S ∧ ∃ new, q.Extends q' new ∧
      ∀ T ∈ new, T.members ≠ [] ∧ ∃ x, m.advance S x = .ok T := by
  obtain ⟨⟨⟩, hacc, hfold⟩ := bind_eq_ok_iff.1 h
  obtain ⟨new, hext, hnew, hfound⟩ := extends_of_foldlM hfold
  exact ⟨⟨hacc, hfound⟩, new, hext, hnew⟩

/-- An expansion fails because two members accept; or else, no two members accepting, at the limit
or over a symbol. -/
theorem expand_eq_error_cases {S : StateSet} {e : AmbiguityError}
    (h : m.expand limit S q = .error e) :
    m.checkAcceptance S = .error e ∨ m.checkAcceptance S = .ok () ∧
      ((∃ n, limit = some n ∧ e = .explorationLimit n) ∨ ∃ x, m.advance S x = .error e) := by
  rcases bind_eq_error_iff.1 h with hacc | ⟨⟨⟩, hacc, hfold⟩
  · exact .inl hacc
  · exact .inr ⟨hacc, error_of_foldlM hfold⟩

/-- A conflict of a set: two of its members accept, or it does not advance. -/
def Conflict (m : Transducer) (S : StateSet) (e : AmbiguityError) : Prop :=
  m.checkAcceptance S = .error e ∨ ∃ x, m.advance S x = .error e

/-- An expansion fails at the limit or at a conflict of the set. -/
theorem conflict_of_expand_error {S : StateSet} {e : AmbiguityError}
    (h : m.expand limit S q = .error e) :
    (∃ n, limit = some n ∧ e = .explorationLimit n) ∨ m.Conflict S e := by
  rcases expand_eq_error_cases h with hacc | ⟨-, hlimit | hadv⟩
  · exact .inr (.inl hacc)
  · exact .inl hlimit
  · exact .inr (.inr hadv)

/-! ### The invariant -/

/-- What holds of a search between two expansions. -/
structure SearchInvariant (m : Transducer) (q : Search) : Prop where
  /-- The set of the initial state is found. -/
  initial : m.initialSet ∈ q.seen
  /-- Only sets that can be active are found. -/
  reachable : ∀ S ∈ q.seen, m.Reachable S
  /-- Only found sets are pending. -/
  pending_subset : ∀ S ∈ q.pending, S ∈ q.seen
  /-- No set is pending twice. -/
  pending_nodup : q.pending.Nodup
  /-- A found set is pending or has been expanded. -/
  expanded : ∀ S ∈ q.seen, S ∈ q.pending ∨ m.Expanded q S

/-- A set that has been expanded stays so while more sets are found. -/
theorem Expanded.mono {new : List StateSet} {S : StateSet} (h : m.Expanded q S)
    (hext : q.Extends q' new) : m.Expanded q' S := by
  refine ⟨h.1, fun b hb ↦ ?_⟩
  obtain ⟨T, hT, hfound⟩ := h.2 b hb
  exact ⟨T, hT, fun hne ↦ hext.mono (hfound hne)⟩

/-- At first the set of the initial state is found and pending. -/
theorem searchInvariant_initial (m : Transducer) :
    m.SearchInvariant ⟨{m.initialSet}, [m.initialSet]⟩ := by
  have hmem : ∀ S, S ∈ ({m.initialSet} : Std.TreeSet StateSet) → S = m.initialSet := by
    intro S hS
    rw [Std.TreeSet.singleton_eq_insert, Std.TreeSet.mem_insert] at hS
    rcases hS with heq | hS
    · exact (Std.LawfulEqOrd.eq_of_compare heq).symm
    · exact absurd hS Std.TreeSet.not_mem_emptyc
  have hself : m.initialSet ∈ ({m.initialSet} : Std.TreeSet StateSet) := by
    rw [Std.TreeSet.singleton_eq_insert]
    exact Std.TreeSet.mem_insert_self
  exact {
    initial := hself
    reachable := fun S hS ↦ hmem S hS ▸ .initial
    pending_subset := fun S hS ↦ List.mem_singleton.1 hS ▸ hself
    pending_nodup := List.nodup_singleton _
    expanded := fun S hS ↦ .inl (List.mem_singleton.2 (hmem S hS)) }

namespace SearchInvariant

/-- **One expansion keeps the invariant**, and the number of found sets that are not pending grows
by one. -/
theorem expand {S : StateSet} {rest : List StateSet} (hq : m.SearchInvariant q)
    (hpending : q.pending = S :: rest) (h : m.expand limit S { q with pending := rest } = .ok q') :
    m.SearchInvariant q' ∧ q'.seen.size + rest.length = q.seen.size + q'.pending.length := by
  obtain ⟨hS, new, hext, hnew⟩ := expanded_of_expand h
  have hSseen : S ∈ q.seen := hq.pending_subset S (hpending ▸ List.mem_cons_self)
  have hnodup := hq.pending_nodup
  rw [hpending, List.nodup_cons] at hnodup
  refine ⟨⟨hext.mono hq.initial, fun T hT ↦ ?_, fun T hT ↦ ?_, ?_, fun T hT ↦ ?_⟩, ?_⟩
  · rcases (hext.mem_seen T).1 hT with hT | hT
    · obtain ⟨hne, x, hadv⟩ := hnew T hT
      exact .step (hq.reachable S hSseen) hadv hne
    · exact hq.reachable T hT
  · rw [hext.pending, List.mem_append] at hT
    rcases hT with hT | hT
    · exact (hext.mem_seen T).2 (.inl hT)
    · exact hext.mono (hq.pending_subset T (hpending ▸ List.mem_cons_of_mem S hT))
  · rw [hext.pending]
    refine List.nodup_append.2 ⟨hext.nodup, hnodup.2, fun T hT U hU heq ↦ ?_⟩
    exact hext.fresh T hT (hq.pending_subset T (hpending ▸ List.mem_cons_of_mem S (heq ▸ hU)))
  · rw [hext.pending, List.mem_append]
    rcases (hext.mem_seen T).1 hT with hT | hT
    · exact .inl (.inl hT)
    · rcases hq.expanded T hT with hmem | hexp
      · -- only `S` leaves the pending list, and it has been expanded
        rw [hpending] at hmem
        rcases List.mem_cons.1 hmem with rfl | hmem
        · exact .inr hS
        · exact .inl (.inr hmem)
      · exact .inr (Expanded.mono (q := { q with pending := rest }) hexp hext)
  · rw [hext.size, hext.pending, List.length_append]
    dsimp only
    omega

theorem capacity_of_reachable {S : StateSet} (h : m.Reachable S) : S.capacity = m.size := by
  cases h with
  | initial => rfl
  | step _ hadv _ => exact capacity_of_advance hadv

/-- There are no more found sets than sets of states. -/
theorem size_le (hq : m.SearchInvariant q) : q.seen.size ≤ 2 ^ m.size := by
  rw [← Std.TreeSet.length_toList]
  refine StateSet.length_le_two_pow q.nodup_toList_seen fun S hS ↦ ?_
  exact capacity_of_reachable (hq.reachable S (Std.TreeSet.mem_toList.1 hS))

/-- **The exploration keeps the invariant**, and with enough fuel it leaves nothing pending. -/
theorem exploreFrom {fuel : Nat} (hq : m.SearchInvariant q)
    (hfuel : q.seen.size + fuel = 2 ^ m.size + q.pending.length)
    (h : m.exploreFrom limit fuel q = .ok q') : m.SearchInvariant q' ∧ q'.pending = [] := by
  induction fuel generalizing q with
  | zero =>
    cases h
    -- the fuel ends only when as many sets are seen as exist, so none is pending
    have hle := hq.size_le
    exact ⟨hq, List.length_eq_zero_iff.1 (by omega)⟩
  | succ fuel ih =>
    rw [Transducer.exploreFrom] at h
    rcases hpending : q.pending with - | ⟨S, rest⟩
    · rw [hpending] at h
      cases h
      exact ⟨hq, hpending⟩
    · rw [hpending] at h
      obtain ⟨r, hexp, h⟩ := bind_eq_ok_iff.1 h
      obtain ⟨hr, hsize⟩ := hq.expand hpending hexp
      refine ih hr ?_ h
      rw [hpending, List.length_cons] at hfuel
      omega

/-- An exploration fails where a set that can be active is expanded. -/
theorem exists_expand_eq_error {fuel : Nat} {e : AmbiguityError} (hq : m.SearchInvariant q)
    (h : m.exploreFrom limit fuel q = .error e) :
    ∃ S r, m.Reachable S ∧ m.expand limit S r = .error e := by
  induction fuel generalizing q with
  | zero => cases h
  | succ fuel ih =>
    rw [Transducer.exploreFrom] at h
    rcases hpending : q.pending with - | ⟨S, rest⟩
    · rw [hpending] at h
      cases h
    · rw [hpending] at h
      rcases bind_eq_error_iff.1 h with hexp | ⟨r, hexp, h⟩
      · have hS := hq.reachable S (hq.pending_subset S (hpending ▸ List.mem_cons_self))
        exact ⟨S, _, hS, hexp⟩
      · exact ih (hq.expand hpending hexp).1 h

/-- An exploration fails at the limit or at a conflict of a set that can be active. -/
theorem conflict_of_exploreFrom_error {fuel : Nat} {e : AmbiguityError} (hq : m.SearchInvariant q)
    (h : m.exploreFrom limit fuel q = .error e) :
    (∃ n, limit = some n ∧ e = .explorationLimit n) ∨ ∃ S, m.Reachable S ∧ m.Conflict S e := by
  obtain ⟨S, r, hS, hexp⟩ := hq.exists_expand_eq_error h
  exact (conflict_of_expand_error hexp).imp_right fun hconflict ↦ ⟨S, hS, hconflict⟩

/-- When nothing is pending, the found sets are the sets that can be active. -/
theorem mem_seen_iff_reachable (hq : m.SearchInvariant q) (hpending : q.pending = [])
    {S : StateSet} : S ∈ q.seen ↔ m.Reachable S := by
  refine ⟨hq.reachable S, fun hS ↦ ?_⟩
  induction hS with
  | initial => exact hq.initial
  | @step S T x _ hadv hne ih =>
    have hexp := (hq.expanded S ih).resolve_left (by simp [hpending])
    obtain ⟨b, hb, hiff⟩ := exists_boundary_advance m S x
    obtain ⟨U, hU, hfound⟩ := hexp.2 b hb
    have hUT : U = T := Except.ok.inj (hU.symm.trans ((hiff T).2 hadv))
    exact hUT ▸ hfound (hUT ▸ hne)

end SearchInvariant

/-! ### The verdict -/

/-- No set that can be active has a conflict. -/
structure ConflictFree (m : Transducer) : Prop where
  /-- At most one member accepts. -/
  acceptance : ∀ {S}, m.Reachable S → m.checkAcceptance S = .ok ()
  /-- Over every symbol, no state is entered twice. -/
  advance : ∀ {S}, m.Reachable S → ∀ x, ∃ T, m.advance S x = .ok T

/-- At first, one set is found. -/
theorem size_initial (m : Transducer) : ({m.initialSet} : Std.TreeSet StateSet).size = 1 := by
  rw [Std.TreeSet.singleton_eq_insert, Std.TreeSet.size_insert]
  rfl

/-- The invariant holds of the search that an exploration returns, and nothing is pending. -/
theorem searchInvariant_of_explore (h : m.explore limit = .ok q) :
    m.SearchInvariant q ∧ q.pending = [] := by
  refine m.searchInvariant_initial.exploreFrom ?_ h
  rw [size_initial, List.length_singleton, Nat.add_comm]
  rfl

/-- The check passes if the exploration comes to its end. -/
theorem checkFunctionalWithin_eq_ok_iff :
    m.checkFunctionalWithin limit = .ok () ↔ ∃ q, m.explore limit = .ok q := by
  rw [checkFunctionalWithin]
  rcases m.explore limit with e | q
  · exact ⟨nofun, nofun⟩
  · exact ⟨fun _ ↦ ⟨q, rfl⟩, fun _ ↦ rfl⟩

/-- The check fails as the exploration does. -/
theorem checkFunctionalWithin_eq_error_iff {e : AmbiguityError} :
    m.checkFunctionalWithin limit = .error e ↔ m.explore limit = .error e := by
  rw [checkFunctionalWithin]
  rcases m.explore limit with e' | q
  · exact ⟨fun h ↦ congrArg Except.error (Except.error.inj h),
      fun h ↦ congrArg Except.error (Except.error.inj h)⟩
  · exact ⟨nofun, nofun⟩

/-- **An exploration that succeeds leaves no conflict**, after any word and over any symbol. -/
theorem conflictFree_of_checkFunctionalWithin (h : m.checkFunctionalWithin limit = .ok ()) :
    m.ConflictFree := by
  obtain ⟨q, hexp⟩ := checkFunctionalWithin_eq_ok_iff.1 h
  obtain ⟨hq, hpending⟩ := searchInvariant_of_explore hexp
  have hexpanded : ∀ {S}, m.Reachable S → m.Expanded q S := fun {S} hS ↦
    (hq.expanded S ((hq.mem_seen_iff_reachable hpending).2 hS)).resolve_left (by simp [hpending])
  refine ⟨fun hS ↦ (hexpanded hS).1, fun {S} hS x ↦ ?_⟩
  obtain ⟨b, hb, hiff⟩ := exists_boundary_advance m S x
  obtain ⟨T, hT, -⟩ := (hexpanded hS).2 b hb
  exact ⟨T, (hiff T).1 hT⟩

/-- The unlimited check fails where a set that can be active is expanded: two members accept, or
else the set does not advance over some symbol. -/
theorem exists_conflict_of_checkFunctional {e : AmbiguityError}
    (h : m.checkFunctional = .error e) :
    ∃ S, m.Reachable S ∧ (m.checkAcceptance S = .error e ∨
      m.checkAcceptance S = .ok () ∧ ∃ x, m.advance S x = .error e) := by
  have hexp := checkFunctionalWithin_eq_error_iff.1 h
  obtain ⟨S, r, hS, hexpand⟩ := m.searchInvariant_initial.exists_expand_eq_error hexp
  rcases expand_eq_error_cases hexpand with hacc | ⟨hacc, ⟨n, hn, -⟩ | hadv⟩
  · exact ⟨S, hS, .inl hacc⟩
  · cases hn
  · exact ⟨S, hS, .inr ⟨hacc, hadv⟩⟩

/-- The unlimited check succeeds exactly when no set that can be active has a conflict. -/
theorem checkFunctional_eq_ok_iff : m.checkFunctional = .ok () ↔ m.ConflictFree := by
  refine ⟨conflictFree_of_checkFunctionalWithin, fun h ↦ ?_⟩
  rw [checkFunctional, checkFunctionalWithin]
  cases hexp : m.explore none with
  | ok q => rfl
  | error e =>
    rcases m.searchInvariant_initial.conflict_of_exploreFrom_error hexp with
      ⟨n, hn, -⟩ | ⟨S, hS, hacc | ⟨x, hadv⟩⟩
    · cases hn
    · cases (h.acceptance hS).symm.trans hacc
    · obtain ⟨T, hT⟩ := h.advance hS x
      cases hT.symm.trans hadv

end Transducer

end Transduction
