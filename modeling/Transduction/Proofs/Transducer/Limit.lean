import Transduction.Proofs.Transducer.Functionality
import Transduction.Proofs.Transducer.Lockstep

/-!
# What a limit changes

An exploration with a limit does what one without it does, until the limit does not let it find one
more set. `Limited` says this of two outcomes: they are the same, and the search that both return is
within the limit; or one of them is the limit, and the search that the other one returns, if it
returns one, is beyond it. Finding a set makes this so (`limited_discover`), and outcomes in turn
keep it since searches only grow (`Limited.bind`). Hence it holds of an expansion and of a whole
exploration (`limited_explore`), also next to one with a greater limit.

A search always holds the set of the initial state. So the limit zero lets as much be found as the
limit one.
-/

namespace Transduction

/-- The search holds the set of the initial state and no more sets than a limit of `n` lets it
find. -/
structure Search.Within (n : Nat) (q : Search) : Prop where
  /-- Some set is found. -/
  pos : 0 < q.seen.size
  /-- One set can be found whatever the limit is. -/
  le : q.seen.size ≤ max n 1

/-- The outcome under a limit of `n` sets next to one under a greater limit, or under none. -/
inductive Limited (n : Nat) : Except AmbiguityError Search → Except AmbiguityError Search → Prop
  /-- Both return the same search, which is within the limit. -/
  | ok {q : Search} (within : q.Within n) : Limited n (.ok q) (.ok q)
  /-- Both fail alike. -/
  | error (e : AmbiguityError) : Limited n (.error e) (.error e)
  /-- The limit is met, and the other outcome is no search within it. -/
  | stopped {r : Except AmbiguityError Search} (beyond : ∀ q, r = .ok q → max n 1 < q.seen.size) :
    Limited n (.error (.explorationLimit n)) r

/-- Searches only grow, so what comes after a met limit does not return within it. -/
theorem Limited.bind {n : Nat} {x y : Except AmbiguityError Search}
    {f g : Search → Except AmbiguityError Search} (h : Limited n x y)
    (hfg : ∀ q, q.Within n → Limited n (f q) (g q))
    (hgrow : ∀ q q', g q = .ok q' → q.seen.size ≤ q'.seen.size) :
    Limited n (x >>= f) (y >>= g) := by
  rcases h with hq | e | hbeyond
  · exact hfg _ hq
  · exact .error e
  · refine .stopped fun q' hq' ↦ ?_
    obtain ⟨q, hq, hg⟩ := bind_eq_ok_iff.1 hq'
    exact Nat.lt_of_lt_of_le (hbeyond q hq) (hgrow q q' hg)

/-- A new set is found below the limit. -/
theorem Search.discover_eq_ok {q : Search} {S : StateSet} {limit : Option Nat}
    (hne : S.members ≠ []) (hnew : S ∉ q.seen) (hlimit : ∀ k, limit = some k → q.seen.size < k) :
    q.discover limit S = .ok ⟨q.seen.insert S, S :: q.pending⟩ := by
  rcases discover_of_new hne hnew limit with hok | ⟨k, hk, hle, -⟩
  · exact hok
  · exact absurd (hlimit k hk) (Nat.not_lt.2 hle)

/-- No new set is found at the limit. -/
theorem Search.discover_eq_error {q : Search} {S : StateSet} {n : Nat} (hne : S.members ≠ [])
    (hnew : S ∉ q.seen) (hn : n ≤ q.seen.size) :
    q.discover (some n) S = .error (.explorationLimit n) := by
  rw [discover.eq_def, if_neg (not_or.2 ⟨mt StateSet.isEmpty_iff.1 hne, hnew⟩)]
  exact if_pos hn

namespace Transducer

variable {m : Transducer} {limit : Option Nat} {n : Nat} {q q' : Search} {e : AmbiguityError}

/-! ### Searches only grow -/

theorem size_le_of_expand {S : StateSet} (h : m.expand limit S q = .ok q') :
    q.seen.size ≤ q'.seen.size := by
  obtain ⟨-, new, hext, -⟩ := expanded_of_expand h
  exact hext.size_le

theorem size_le_of_exploreFrom {fuel : Nat} (h : m.exploreFrom limit fuel q = .ok q') :
    q.seen.size ≤ q'.seen.size := by
  induction fuel generalizing q with
  | zero =>
    cases h
    exact Nat.le_refl _
  | succ fuel ih =>
    rw [exploreFrom] at h
    rcases hpending : q.pending with - | ⟨S, rest⟩
    · rw [hpending] at h
      cases h
      exact Nat.le_refl _
    · rw [hpending] at h
      obtain ⟨r, hexp, h⟩ := bind_eq_ok_iff.1 h
      have hgrow : q.seen.size ≤ r.seen.size :=
        size_le_of_expand (q := { q with pending := rest }) hexp
      exact Nat.le_trans hgrow (ih h)

/-! ### One limit next to another -/

section Limits

variable (hlimit : ∀ k, limit = some k → n ≤ k)

include hlimit

/-- **The limit is met where a set beyond it would be found.** -/
theorem limited_discover (hq : q.Within n) (S : StateSet) :
    Limited n (q.discover (some n) S) (q.discover limit S) := by
  by_cases hknown : S.members = [] ∨ S ∈ q.seen
  · rw [Search.discover_of_known hknown, Search.discover_of_known hknown]
    exact .ok hq
  · -- a set that is new makes the search grow by one, or stops the limited one
    obtain ⟨hne, hnew⟩ := not_or.1 hknown
    have hsize := (q.extends_insert hnew).size
    rw [List.length_singleton] at hsize
    have hpos := hq.pos
    rcases Nat.lt_or_ge q.seen.size n with hlt | hge
    · rw [Search.discover_eq_ok hne hnew fun k hk ↦ Nat.lt_of_lt_of_le hlt (hlimit k hk),
        Search.discover_eq_ok hne hnew fun k hk ↦ Option.some.inj hk ▸ hlt]
      exact .ok ⟨by omega, by omega⟩
    · rw [Search.discover_eq_error hne hnew hge]
      refine .stopped fun q' hq' ↦ ?_
      rcases Search.discover_of_new hne hnew limit with hok | ⟨k, -, -, herror⟩
      · cases hok.symm.trans hq'
        omega
      · cases herror.symm.trans hq'

/-- Under the limit, symbols are tried as under a greater one until the limit is met. -/
theorem limited_foldlM (hq : q.Within n) (S : StateSet) (xs : List Symbol) :
    Limited n (xs.foldlM (fun q x ↦ do q.discover (some n) (← m.advance S x)) q)
      (xs.foldlM (fun q x ↦ do q.discover limit (← m.advance S x)) q) := by
  induction xs generalizing q with
  | nil => exact .ok hq
  | cons x xs ih =>
    rw [List.foldlM_cons, List.foldlM_cons]
    have hstep : Limited n (m.advance S x >>= q.discover (some n))
        (m.advance S x >>= q.discover limit) := by
      rcases m.advance S x with e | T
      · exact .error e
      · exact limited_discover hlimit hq T
    refine hstep.bind (fun r hr ↦ ih hr) fun r r' hr' ↦ ?_
    obtain ⟨new, hext, -, -⟩ := extends_of_foldlM hr'
    exact hext.size_le

/-- Under the limit, a set is expanded as under a greater one until the limit is met. -/
theorem limited_expand (hq : q.Within n) (S : StateSet) :
    Limited n (m.expand (some n) S q) (m.expand limit S q) := by
  rw [expand, expand]
  rcases m.checkAcceptance S with e | -
  · exact .error e
  · exact limited_foldlM hlimit hq S _

/-- **Explorations agree up to the limit**, whatever the fuel. -/
theorem limited_exploreFrom (hq : q.Within n) (fuel : Nat) :
    Limited n (m.exploreFrom (some n) fuel q) (m.exploreFrom limit fuel q) := by
  induction fuel generalizing q with
  | zero => exact .ok hq
  | succ fuel ih =>
    rw [exploreFrom, exploreFrom]
    rcases q.pending with - | ⟨S, rest⟩
    · exact .ok hq
    · have hrest : Search.Within n { q with pending := rest } := ⟨hq.pos, hq.le⟩
      exact (limited_expand hlimit hrest S).bind (fun r hr ↦ ih hr) fun r r' hr' ↦
        size_le_of_exploreFrom hr'

end Limits

/-- **An exploration under a limit agrees with one under a greater limit**, or under none. -/
theorem limited_explore (m : Transducer) (n : Nat) (limit : Option Nat)
    (hlimit : ∀ k, limit = some k → n ≤ k) :
    Limited n (m.explore (some n)) (m.explore limit) := by
  refine limited_exploreFrom hlimit ⟨?_, ?_⟩ _
  · rw [size_initial]
    exact Nat.one_pos
  · rw [size_initial]
    exact Nat.le_max_right n 1

/-! ### The verdict under a limit -/

/-- Without a limit, no limit is met. -/
theorem ne_explorationLimit_of_checkFunctional (h : m.checkFunctional = .error e) (n : Nat) :
    e ≠ .explorationLimit n := by
  obtain ⟨S, -, hacc | ⟨-, x, hadv⟩⟩ := exists_conflict_of_checkFunctional h
  · obtain ⟨s, t, f, g, rfl, -⟩ := members_of_checkAcceptance hacc
    nofun
  · obtain ⟨a, b, rfl, -⟩ := arrivals_of_advance_error hadv
    nofun

/-- **The limit is compared with the number of sets** that are found without it. -/
theorem checkFunctionalWithin_some_of_explore (h : m.explore none = .ok q) (n : Nat) :
    m.checkFunctionalWithin (some n) =
      if q.seen.size ≤ max n 1 then .ok () else .error (.explorationLimit n) := by
  have hlimited := m.limited_explore n none nofun
  rw [h] at hlimited
  rw [checkFunctionalWithin]
  generalize m.explore (some n) = r at hlimited
  rcases hlimited with hwithin | - | hbeyond
  · rw [if_pos hwithin.le]
    rfl
  · rw [if_neg (Nat.not_le.2 (hbeyond q rfl))]
    rfl

/-- Under a limit, another failure than that without it is the limit. -/
theorem checkFunctionalWithin_some_cases (h : m.checkFunctional = .error e) (n : Nat) :
    m.checkFunctionalWithin (some n) = .error e ∨
      m.checkFunctionalWithin (some n) = .error (.explorationLimit n) := by
  have hlimited := m.limited_explore n none nofun
  rw [checkFunctional, checkFunctionalWithin_eq_error_iff] at h
  rw [h] at hlimited
  rw [checkFunctionalWithin_eq_error_iff, checkFunctionalWithin_eq_error_iff]
  generalize m.explore (some n) = r at hlimited
  rcases hlimited with - | - | -
  · exact .inl rfl
  · exact .inr rfl

/-- A limit that is not met before the failure can be raised. -/
theorem checkFunctionalWithin_some_mono {k : Nat} (h : m.checkFunctional = .error e)
    (hn : m.checkFunctionalWithin (some n) = .error e) (hk : n ≤ k) :
    m.checkFunctionalWithin (some k) = .error e := by
  have hlimited := m.limited_explore n (some k) fun l hl ↦ Option.some.inj hl ▸ hk
  have hne := ne_explorationLimit_of_checkFunctional h n
  rw [checkFunctionalWithin_eq_error_iff] at hn ⊢
  rw [hn] at hlimited
  generalize m.explore (some k) = r at hlimited
  rcases hlimited with - | - | -
  · rfl
  · exact absurd rfl hne

/-- **A limit is exact, and it only ever gives up.** A machine that passes without a limit passes
under every limit that is not below the number of sets that can be active, one set being allowed
always; and it meets every other limit. A machine that does not pass fails under a limit as it does
without one, or it meets the limit; and if it does not meet it, it meets no greater one. -/
theorem checkFunctionalWithin_some (m : Transducer) :
    (m.checkFunctional = .ok () → ∃ sets : List StateSet, sets.Nodup ∧
      (∀ S, S ∈ sets ↔ m.Reachable S) ∧
      ∀ n, m.checkFunctionalWithin (some n) =
        if sets.length ≤ max n 1 then .ok () else .error (.explorationLimit n)) ∧
    ∀ e, m.checkFunctional = .error e → ∀ n,
      (m.checkFunctionalWithin (some n) = .error e ∨
        m.checkFunctionalWithin (some n) = .error (.explorationLimit n)) ∧
      (m.checkFunctionalWithin (some n) = .error e →
        ∀ k, n ≤ k → m.checkFunctionalWithin (some k) = .error e) := by
  refine ⟨fun h ↦ ?_, fun e h n ↦ ?_⟩
  · obtain ⟨q, hexplore⟩ := checkFunctionalWithin_eq_ok_iff.1 h
    obtain ⟨hq, hpending⟩ := searchInvariant_of_explore hexplore
    refine ⟨q.seen.toList, q.nodup_toList_seen, fun S ↦ ?_, fun n ↦ ?_⟩
    · rw [Std.TreeSet.mem_toList]
      exact hq.mem_seen_iff_reachable hpending
    · rw [Std.TreeSet.length_toList]
      exact checkFunctionalWithin_some_of_explore hexplore n
  · exact ⟨checkFunctionalWithin_some_cases h n, fun hn k hk ↦
      checkFunctionalWithin_some_mono h hn hk⟩

/-- A machine that passes the check, where the limit is compared with the number of sets, and one
that fails it, where four sets are enough to see the failure and three are not. -/
theorem turns_and_diamond_limits :
    (turns.checkFunctional = .ok () ∧ ∃ sets : List StateSet, sets.Nodup ∧
      (∀ S, S ∈ sets ↔ turns.Reachable S) ∧
      ∀ n, turns.checkFunctionalWithin (some n) =
        if sets.length ≤ max n 1 then .ok () else .error (.explorationLimit n)) ∧
    (diamond false).checkFunctional = .error (.transitions 1 2 3 99) ∧
      (diamond false).checkFunctionalWithin (some 3) = .error (.explorationLimit 3) ∧
      ∀ k, 4 ≤ k →
        (diamond false).checkFunctionalWithin (some k) = .error (.transitions 1 2 3 99) := by
  have hturns : turns.checkFunctional = .ok () := by decide +kernel
  have hdiamond : (diamond false).checkFunctional = .error (.transitions 1 2 3 99) := by
    decide +kernel
  have hfour : (diamond false).checkFunctionalWithin (some 4) =
      .error (.transitions 1 2 3 99) := by decide +kernel
  exact ⟨⟨hturns, (checkFunctionalWithin_some turns).1 hturns⟩, hdiamond, by decide +kernel,
    ((checkFunctionalWithin_some (diamond false)).2 _ hdiamond 4).2 hfour⟩

end Transducer

end Transduction
