import Std.Data.TreeMap.Lemmas
import Transduction.Proofs.Transducer.EdgeQuery
import Transduction.Proofs.Transducer.Lockstep
import Transduction.Transducer.Entering

/-!
# Advancing any set of states

A set is advanced here whether it can be active after some word or not. While edges are taken, both
records are those of the arrivals so far (`Entered.Holds`): the set holds the states that they
enter, and the source of a state is that of the first arrival there. So a state that is entered
again is found in the records exactly when the arrivals clash (`Entered.Outcome`). One edge keeps
this, hence do the edges of a state (`Holds.enter`) and all members, one after the other
(`Holds.enterFrom`), and what comes out is `advance` (`advanceChecked_eq_onForeign`).

Which states are entered, and whether one is entered twice, does not depend on the order of the
arrivals. So a set advances exactly when no two edges of its members lead to one state
(`exists_advance_eq_ok_iff`). Fewer members have fewer edges, so a part of a set advances if the set
does (`exists_advance_of_subset`).
-/

namespace Transduction

namespace Transducer

variable {m : Transducer} {s : StateId}

/-! ### Which states and edges are there -/

/-- The query finds the matches, without their indices. -/
theorem edgesReading?_eq_map_matching (hs : s < m.size) (x : Symbol) :
    m.edgesReading? s x = some ((m.matching s x).map (·.1)) := by
  rw [edgesReading?_eq_readingFromBack hs, map_fst_matching, readingFromBack]

/-- A member that is no state of the machine has no row to look at. -/
theorem enterFrom_cons_of_le {x : Symbol} {q : Entered} {members : List StateId}
    (hs : m.size ≤ s) : m.enterFrom x q (s :: members) = none := by
  rw [enterFrom, edgesReading?, Array.getElem?_eq_none hs]
  rfl

/-- Members are gone through one after the other, and a failure ends it. -/
theorem enterFrom_append (x : Symbol) (q : Entered) (l k : List StateId) :
    m.enterFrom x q (l ++ k) = (m.enterFrom x q l).bind fun r ↦
      match r with
      | .error e => some (.error e)
      | .ok q => m.enterFrom x q k := by
  induction l generalizing q with
  | nil => rfl
  | cons s l ih =>
    rw [List.cons_append, enterFrom, enterFrom]
    rcases m.edgesReading? s x with - | found
    · rfl
    dsimp only [bind, Option.bind_some]
    rcases q.enter x s found with - | ⟨e | q'⟩
    · rfl
    · rfl
    · exact ih q'

/-- In ascending order, the states of a machine come before all other numbers. -/
theorem exists_append_of_pairwise_lt {members : List StateId} (h : members.Pairwise (· < ·))
    (n : Nat) : ∃ present missing, members = present ++ missing ∧ (∀ s ∈ present, s < n) ∧
      ∀ s ∈ missing, n ≤ s := by
  induction members with
  | nil => exact ⟨[], [], rfl, nofun, nofun⟩
  | cons s members ih =>
    obtain ⟨hs, hmembers⟩ := List.pairwise_cons.1 h
    rcases Nat.lt_or_ge s n with hlt | hle
    · obtain ⟨present, missing, rfl, hpresent, hmissing⟩ := ih hmembers
      exact ⟨s :: present, missing, rfl, List.forall_mem_cons.2 ⟨hlt, hpresent⟩, hmissing⟩
    · refine ⟨[], s :: members, rfl, nofun, List.forall_mem_cons.2 ⟨hle, fun t ht ↦ ?_⟩⟩
      exact Nat.le_trans hle (Nat.le_of_lt (hs t ht))

end Transducer

namespace Entered

variable {m : Transducer} {q : Entered} {size : Nat} {x : Symbol} {s : StateId} {a : Arrival}
  {seen l k : List Arrival} {r : Option (Except AmbiguityError Entered)}

/-! ### The two records -/

/-- Both records are those of the arrivals in `seen`, the last one first. -/
structure Holds (q : Entered) (size : Nat) (seen : List Arrival) : Prop where
  /-- The set is one of states of the machine. -/
  capacity : q.states.capacity = size
  /-- The set holds the states that are entered. -/
  mem_states : ∀ t, t ∈ q.states ↔ t ∈ seen.map (·.target)
  /-- The sources are those of the arrivals. -/
  source : ∀ t, q.sources[t]? = (seen.find? (·.target = t)).map (·.source)

theorem holds_empty (size : Nat) : (empty size).Holds size [] where
  capacity := rfl
  mem_states t := iff_of_false (StateSet.not_mem_empty size t) List.not_mem_nil
  source _ := Std.TreeMap.getElem?_emptyc

/-- **One more arrival is put down in both records.** -/
theorem Holds.insert? (h : q.Holds size seen) (ha : a.target < size) :
    ∃ states, q.states.insert? a.target = some states ∧
      Holds ⟨q.sources.insert a.target a.source, states⟩ size (a :: seen) := by
  rcases hstates : q.states.insert? a.target with - | states
  · have hle := StateSet.insert?_eq_none_iff.1 hstates
    rw [h.capacity] at hle
    exact absurd ha (Nat.not_lt.2 hle)
  · refine ⟨states, rfl, (StateSet.capacity_of_insert? hstates).trans h.capacity, fun t ↦ ?_,
      fun t ↦ ?_⟩
    · rw [StateSet.mem_of_insert? hstates, h.mem_states, List.map_cons, List.mem_cons]
    · rw [Std.TreeMap.getElem?_insert, h.source, List.find?_cons]
      by_cases ht : a.target = t
      · simp [ht]
      · simp [ht]

/-- What taking edges comes to when `l` are the arrivals by them and those in `seen` came before,
the last one first. -/
inductive Outcome (size : Nat) (x : Symbol) (seen l : List Arrival) :
    Option (Except AmbiguityError Entered) → Prop
  /-- A state is entered again. -/
  | clash {a b : Arrival} (h : clashAfter? seen l = some (a, b)) :
    Outcome size x seen l (some (.error (.transitions a.source b.source b.target x)))
  /-- No state is entered again, and all arrivals have been put down. -/
  | done {q : Entered} (h : clashAfter? seen l = none) (holds : q.Holds size (l.reverse ++ seen)) :
    Outcome size x seen l (some (.ok q))

/-- Where the first arrivals do not clash, the outcome is that of all of them. -/
theorem Outcome.append (hl : clashAfter? seen l = none)
    (h : Outcome size x (l.reverse ++ seen) k r) : Outcome size x seen (l ++ k) r := by
  have happend : clashAfter? seen (l ++ k) = clashAfter? (l.reverse ++ seen) k := by
    rw [clashAfter?_append, hl, Option.none_or]
  cases h with
  | clash h => exact .clash (happend.trans h)
  | done h holds =>
    refine .done (happend.trans h) ?_
    rwa [List.reverse_append, List.append_assoc]

/-! ### The two loops -/

/-- **The edges of one state are taken up to the first clash.** -/
theorem Holds.enter (h : q.Holds size seen) {found : List (Edge × Nat)}
    (hfound : ∀ e ∈ found, e.1.target < size) :
    Outcome size x seen (found.map fun e ↦ ⟨s, e.2, e.1.target⟩)
      (q.enter x s (found.map (·.1))) := by
  induction found generalizing q seen with
  | nil => exact .done rfl h
  | cons e found ih =>
    obtain ⟨he, hrest⟩ := List.forall_mem_cons.1 hfound
    have hsource := h.source e.1.target
    rw [List.map_cons, List.map_cons, Entered.enter]
    rcases hfind : seen.find? (·.target = e.1.target) with - | a
    · rw [hfind, Option.map_none] at hsource
      obtain ⟨states, hstates, hholds⟩ := h.insert? (a := ⟨s, e.2, e.1.target⟩) he
      rw [hsource, hstates]
      refine Outcome.append (l := [⟨s, e.2, e.1.target⟩]) ?_ (ih hholds hrest)
      rw [clashAfter?, hfind]
      rfl
    · rw [hfind, Option.map_some] at hsource
      rw [hsource]
      refine .clash (a := a) (b := ⟨s, e.2, e.1.target⟩) ?_
      rw [clashAfter?, hfind]

/-- **States are gone through up to the first clash.** -/
theorem Holds.enterFrom (h : q.Holds m.size seen) {members : List StateId}
    (hmembers : ∀ s ∈ members, s < m.size) :
    Outcome m.size x seen (m.arrivals members x) (m.enterFrom x q members) := by
  induction members generalizing q seen with
  | nil => exact .done rfl h
  | cons s members ih =>
    obtain ⟨hs, hrest⟩ := List.forall_mem_cons.1 hmembers
    have htarget : ∀ e ∈ m.matching s x, e.1.target < m.size := fun e he ↦
      Transducer.target_lt_size (Transducer.mem_matching.1 he).1
    have houtcome := h.enter (x := x) (s := s) htarget
    rw [← Transducer.arrivals_singleton] at houtcome
    rw [← List.singleton_append, Transducer.arrivals_append, List.singleton_append,
      Transducer.enterFrom, Transducer.edgesReading?_eq_map_matching hs]
    dsimp only [bind, Option.bind_some]
    generalize q.enter x s ((m.matching s x).map (·.1)) = r at houtcome ⊢
    cases houtcome with
    | clash hclash => exact .clash (by rw [clashAfter?_append, hclash, Option.some_or])
    | done hnone holds => exact .append hnone (ih holds hrest)

end Entered

namespace Transducer

variable {m : Transducer} {q : Entered} {S T : StateSet} {x : Symbol}

/-- When all arrivals have been put down without a clash, the set has advanced. -/
theorem advance_eq_of_holds (hclash : clash? (m.arrivals S.members x) = none)
    (h : q.Holds m.size (m.arrivals S.members x).reverse) : m.advance S x = .ok q.states := by
  obtain ⟨T, hT⟩ : ∃ T, m.advance S x = .ok T :=
    ⟨_, advance_eq_ok_iff.2 ⟨clash?_eq_none_iff.1 hclash, rfl⟩⟩
  have heq : T = q.states := by
    refine StateSet.ext_mem ((capacity_of_advance hT).trans h.capacity.symm) fun t ↦ ?_
    rw [h.mem_states, List.map_reverse, List.mem_reverse]
    exact (perm_members_of_advance hT).mem_iff
  rw [hT, heq]

/-- **Entering the states one after the other advances the set.** It stops without an outcome
exactly when the set has a member that is not a state of the machine and no state is entered twice
by the other members. -/
theorem advanceChecked_eq_onForeign (m : Transducer) (S : StateSet) (x : Symbol) :
    m.advanceChecked S x = m.onForeign S (m.advance S x) := by
  -- the members ascend, so those of the machine are tried before the missing ones
  obtain ⟨present, missing, hmembers, hpresent, hmissing⟩ :=
    exists_append_of_pairwise_lt S.ascending m.size
  have harrivals : m.arrivals S.members x = m.arrivals present x := by
    rw [hmembers, arrivals_append, arrivals_eq_nil hmissing, List.append_nil]
  have houtcome := (Entered.holds_empty m.size).enterFrom hpresent (x := x)
  rw [advanceChecked, hmembers, enterFrom_append]
  generalize m.enterFrom x (.empty m.size) present = r at houtcome ⊢
  rw [← harrivals] at houtcome
  cases houtcome with
  | clash hclash =>
    rw [advance, clash?, hclash]
    rfl
  | @done q hnone holds =>
    rw [advance_eq_of_holds hnone (by rwa [List.append_nil] at holds), onForeign]
    rcases missing with - | ⟨s, missing⟩
    · rw [List.append_nil] at hmembers
      have hcovers : m.Covers S := fun s hs ↦ hpresent s (hmembers ▸ hs)
      rw [if_pos hcovers]
      rfl
    · have hs : m.size ≤ s := hmissing s List.mem_cons_self
      have hcovers : ¬ m.Covers S := fun h ↦
        Nat.not_lt.2 hs (h s (hmembers ▸ List.mem_append_right present List.mem_cons_self))
      rw [if_neg hcovers, Option.bind_some]
      dsimp only
      rw [enterFrom_cons_of_le hs]
      rfl

/-- A set of states of the machine always has an outcome. -/
theorem advanceChecked_eq (hS : m.Covers S) (x : Symbol) :
    m.advanceChecked S x = some (m.advance S x) := by
  rw [advanceChecked_eq_onForeign]
  rcases m.advance S x with e | T
  · rfl
  · exact if_pos hS

/-! ### Exactness -/

/-- **A set advances exactly when no state is entered twice.** -/
theorem exists_advance_eq_ok_iff : (∃ T, m.advance S x = .ok T) ↔ ¬ m.EntersTwice S x := by
  constructor
  · rintro ⟨T, hT⟩ ⟨s, hs, s', hs', i, j, t, hne, hleads, hleads'⟩
    have hnodup := (advance_eq_ok_iff.1 hT).1
    have ha : ⟨s, i, t⟩ ∈ m.arrivals S.members x := mem_arrivals.2 ⟨hs, hleads⟩
    have hb : ⟨s', j, t⟩ ∈ m.arrivals S.members x := mem_arrivals.2 ⟨hs', hleads'⟩
    have heq := List.inj_on_of_nodup_map hnodup ha hb rfl
    cases heq
    exact hne rfl
  · intro honce
    rcases hadv : m.advance S x with e | T
    · obtain ⟨s, s', t, i, j, -, hs, hs', -, hne, hleads, hleads'⟩ := leads_of_advance_error hadv
      exact absurd ⟨s, hs, s', hs', i, j, t, hne, hleads, hleads'⟩ honce
    · exact ⟨T, rfl⟩

/-- What enters a state twice does so in every greater set. -/
theorem EntersTwice.mono (h : m.EntersTwice S x) (hsub : ∀ s ∈ S, s ∈ T) : m.EntersTwice T x := by
  obtain ⟨s, hs, s', hs', h⟩ := h
  exact ⟨s, hsub s hs, s', hsub s' hs', h⟩

/-- A part of a set advances to a part of what the set advances to. -/
theorem exists_advance_of_subset {T' : StateSet} (hsub : ∀ s ∈ S, s ∈ T)
    (h : m.advance T x = .ok T') : ∃ S', m.advance S x = .ok S' ∧ ∀ s ∈ S', s ∈ T' := by
  have honce : ¬ m.EntersTwice T x := exists_advance_eq_ok_iff.1 ⟨T', h⟩
  obtain ⟨S', hS'⟩ := exists_advance_eq_ok_iff.2 fun htwice ↦ honce (htwice.mono hsub)
  refine ⟨S', hS', fun t ht ↦ ?_⟩
  obtain ⟨s, hs, hleads⟩ := (mem_of_advance hS').1 ht
  exact (mem_of_advance h).2 ⟨s, hsub s hs, hleads⟩

/-- **An advance is exact on any set of states of the machine**, whether the set can be active or
not. It has an outcome, that of `advance`. It succeeds exactly when no two different edges of
members read the symbol and lead to one state, and then to the set of all states that such an edge
of a member leads to. If it fails, it names two members, in their order, with two such edges, and
the state that they lead to. So if a set advances, each part of it does, to a part of the states. -/
theorem advanceChecked_exact_and_mono (hT : m.Covers T) (x : Symbol) :
    m.advanceChecked T x = some (m.advance T x) ∧
    ((∃ T', m.advanceChecked T x = some (.ok T')) ↔ ¬ m.EntersTwice T x) ∧
    (∀ T', m.advanceChecked T x = some (.ok T') →
      T'.capacity = m.size ∧ ∀ t, t ∈ T' ↔ ∃ s ∈ T, ∃ i, m.Leads x s i t) ∧
    (∀ e, m.advanceChecked T x = some (.error e) →
      ∃ s s' t i j, e = .transitions s s' t x ∧ s ∈ T ∧ s' ∈ T ∧ s ≤ s' ∧ (s, i) ≠ (s', j) ∧
        m.Leads x s i t ∧ m.Leads x s' j t) ∧
    ∀ S T', (∀ s ∈ S, s ∈ T) → m.advanceChecked T x = some (.ok T') →
      ∃ S', m.advanceChecked S x = some (.ok S') ∧ ∀ s ∈ S', s ∈ T' := by
  simp only [advanceChecked_eq hT, Option.some.injEq, true_and]
  refine ⟨exists_advance_eq_ok_iff, fun T' h ↦ ⟨capacity_of_advance h, fun t ↦ mem_of_advance h⟩,
    fun e h ↦ leads_of_advance_error h, fun S T' hsub h ↦ ?_⟩
  have hS : m.Covers S := fun s hs ↦ hT s (hsub s hs)
  obtain ⟨S', hS', hsub'⟩ := exists_advance_of_subset hsub h
  exact ⟨S', by rw [advanceChecked_eq hS, hS'], hsub'⟩

/-- No word leads to both states of the twins. Over `a`, both edges of the first one lead to the
second one, over `b` one of them does. -/
theorem twins_advanceChecked :
    twins.Covers (.ofList 2 [0, 1]) ∧
      (twins.advanceChecked (.ofList 2 [0, 1]) 97 = some (.error (.transitions 0 0 1 97)) ∧
        twins.EntersTwice (.ofList 2 [0, 1]) 97) ∧
      twins.advanceChecked (.ofList 2 [0, 1]) 98 = some (.ok (.ofList 2 [0, 1])) ∧
      ∃ S, twins.advanceChecked (.ofList 2 [0]) 98 = some (.ok S) ∧
        ∀ s ∈ S, s ∈ StateSet.ofList 2 [0, 1] := by
  have hcovers : twins.Covers (.ofList 2 [0, 1]) := by decide
  obtain ⟨hfails, hiff, -, -, -⟩ := advanceChecked_exact_and_mono hcovers 97
  obtain ⟨hsucceeds, -, -, -, hmono⟩ := advanceChecked_exact_and_mono hcovers 98
  have herror : twins.advanceChecked (.ofList 2 [0, 1]) 97 =
      some (.error (.transitions 0 0 1 97)) := hfails.trans (by decide +kernel)
  have hok : twins.advanceChecked (.ofList 2 [0, 1]) 98 = some (.ok (.ofList 2 [0, 1])) :=
    hsucceeds.trans (by decide +kernel)
  refine ⟨hcovers, ⟨herror, ?_⟩, hok, hmono _ _ (by decide) hok⟩
  by_contra honce
  obtain ⟨T, hT⟩ := hiff.2 honce
  cases herror.symm.trans hT

end Transducer

end Transduction
