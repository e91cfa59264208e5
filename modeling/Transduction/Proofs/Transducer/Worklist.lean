import Transduction.Proofs.Transducer.Exploration
import Transduction.Transducer.Worklist

/-!
# The work list comes to an end

What an action does is said once, stage by stage (`act?_of_pending_eq_cons`, `act?_of_ok` and the
lemmas next to them). Every action keeps an account (`Account`): the sets that have been put onto
the pending list are the found ones, each put there once, and they are the sets that have been taken
off together with those that are pending. What is put there can be active. So no more sets are taken
off than there are sets of states, whether the exploration fails or not
(`Account.length_popped_le`).

That the actions come to an end is shown along `explore`. A set that is being expanded is tried with
one symbol after the other (`Works.exists_tried`), and one set after the other is expanded
(`Works.exists_done`), so the last of the actions shows what `explore` returns. The fuel of
`explore` is what is used up here; actions have none, and no action is left when nothing is pending.
-/

namespace Transduction

/-- The sets that are put onto the list are the new ones. -/
theorem Search.Extends.pushes_eq {q q' : Search} {new : List StateSet} (h : q.Extends q' new) :
    q.pushes q' = new := by
  rw [pushes, h.pending, List.length_append, Nat.add_sub_cancel]
  exact List.take_left' rfl

/-- The exploration has come to an outcome: it has failed, or it is to go on from a search. -/
def Worklist.Shows (W : Worklist) : Except AmbiguityError Search → Prop
  | .ok q => W.search = q ∧ W.stage = .idle
  | .error e => W.stage = .failed e

/-- The verdict is that of the search. -/
theorem Worklist.Shows.verdict_eq {W : Worklist} {r : Except AmbiguityError Search}
    (h : W.Shows r) : W.verdict = r.map fun _ ↦ () := by
  rcases r with e | q
  · rw [verdict, (show W.stage = .failed e from h)]
    rfl
  · rw [verdict, h.2]
    rfl

namespace Transducer

variable {m : Transducer} {limit : Option Nat} {W W' : Worklist} {S : StateSet}
  {rest : List StateSet} {x : Symbol} {xs : List Symbol}

/-- Symbols are tried only from the set that has been taken off. -/
theorem eq_of_opening_eq_trying {T : StateSet} (h : m.opening S = .trying T xs) : T = S := by
  rw [opening] at h
  split at h
  · cases h
  · cases h
    rfl

/-! ### One action -/

theorem act?_of_failed {e : AmbiguityError} (h : W.stage = .failed e) : m.act? limit W = none := by
  rw [act?, h]

/-- Nothing is done when nothing is pending. -/
theorem act?_of_pending_eq_nil (hstage : W.stage = .idle) (hpending : W.search.pending = []) :
    m.act? limit W = none := by
  rw [act?, hstage]
  dsimp only
  rw [hpending]

/-- A pending set is taken off. -/
theorem act?_of_pending_eq_cons (hstage : W.stage = .idle)
    (hpending : W.search.pending = S :: rest) :
    m.act? limit W = some { W with
      search := { W.search with pending := rest }, stage := m.opening S,
      popped := S :: W.popped } := by
  rw [act?, hstage]
  dsimp only
  rw [hpending]

/-- The expansion of a set is over. -/
theorem act?_of_trying_nil (hstage : W.stage = .trying S []) :
    m.act? limit W = some { W with stage := .idle } := by
  rw [act?, hstage]

/-- A symbol is tried, and the exploration fails. -/
theorem act?_of_error {e : AmbiguityError} (hstage : W.stage = .trying S (x :: xs))
    (he : (do W.search.discover limit (← m.advance S x)) = .error e) :
    m.act? limit W = some { W with stage := .failed e } := by
  rw [act?, hstage]
  dsimp only
  rw [he]

/-- A symbol is tried, and the exploration goes on. -/
theorem act?_of_ok {q : Search} (hstage : W.stage = .trying S (x :: xs))
    (hq : (do W.search.discover limit (← m.advance S x)) = .ok q) :
    m.act? limit W = some { W with
      search := q, stage := .trying S xs, pushed := W.search.pushes q ++ W.pushed } := by
  rw [act?, hstage]
  dsimp only
  rw [hq]

/-! ### What every action keeps -/

/-- How what has been put onto the pending list and taken off it stands to what has been found. -/
structure Account (m : Transducer) (W : Worklist) : Prop where
  /-- The sets that have been put onto the list are the found ones. -/
  mem_seen : ∀ S, S ∈ W.search.seen ↔ S ∈ W.pushed
  /-- None of them has been put there twice. -/
  nodup : W.pushed.Nodup
  /-- Each of them has been taken off or is pending. -/
  perm : (W.popped ++ W.search.pending).Perm W.pushed
  /-- Each of them can be active. -/
  reachable : ∀ S ∈ W.pushed, m.Reachable S
  /-- A set that is being expanded has been taken off. -/
  trying : ∀ S xs, W.stage = .trying S xs → S ∈ W.popped

theorem account_initial (m : Transducer) : m.Account (.initial m) where
  mem_seen S := by
    show S ∈ ({m.initialSet} : Std.TreeSet StateSet) ↔ S ∈ [m.initialSet]
    rw [Std.TreeSet.singleton_eq_insert, Std.TreeSet.mem_insert,
      Std.LawfulEqOrd.compare_eq_iff_eq, List.mem_singleton, eq_comm]
    exact or_iff_left Std.TreeSet.not_mem_emptyc
  nodup := List.nodup_singleton _
  perm := List.Perm.refl _
  reachable S hS := List.mem_singleton.1 hS ▸ .initial
  trying S xs h := nomatch h

namespace Account

/-- A set is taken off. -/
theorem pop (h : m.Account W) (hpending : W.search.pending = S :: rest) (stage : Worklist.Stage)
    (hstage : ∀ T xs, stage = .trying T xs → T = S) :
    m.Account
      { W with search := { W.search with pending := rest }, stage, popped := S :: W.popped } where
  mem_seen := h.mem_seen
  nodup := h.nodup
  perm := by
    have hperm := h.perm
    rw [hpending] at hperm
    exact List.perm_middle.symm.trans hperm
  reachable := h.reachable
  trying T xs hT := hstage T xs hT ▸ List.mem_cons_self

/-- Nothing is taken off and nothing is put onto the list. -/
theorem withStage (h : m.Account W) (stage : Worklist.Stage)
    (hstage : ∀ S xs, stage = .trying S xs → S ∈ W.popped) : m.Account { W with stage } where
  mem_seen := h.mem_seen
  nodup := h.nodup
  perm := h.perm
  reachable := h.reachable
  trying := hstage

/-- A symbol is tried: what is put onto the list has not been there before. -/
theorem tried {q : Search} (h : m.Account W) (hstage : W.stage = .trying S (x :: xs))
    (hq : (do W.search.discover limit (← m.advance S x)) = .ok q) :
    m.Account
      { W with search := q, stage := .trying S xs, pushed := W.search.pushes q ++ W.pushed } := by
  have hS : S ∈ W.popped := h.trying S _ hstage
  obtain ⟨T, hadv, hdisc⟩ := bind_eq_ok_iff.1 hq
  obtain ⟨new, hext, hnew, -⟩ := Search.extends_of_discover hdisc
  rw [hext.pushes_eq]
  refine ⟨fun U ↦ ?_, ?_, ?_, fun U hU ↦ ?_, fun U ys hU ↦ ?_⟩
  · rw [hext.mem_seen, List.mem_append, h.mem_seen]
  · -- what is pushed now is new, and what was pushed before has been seen
    refine List.nodup_append.2 ⟨hext.nodup, h.nodup, fun U hU V hV heq ↦ ?_⟩
    exact hext.fresh U hU ((h.mem_seen U).2 (heq ▸ hV))
  · show (W.popped ++ q.pending).Perm (new ++ W.pushed)
    rw [hext.pending]
    calc W.popped ++ (new ++ W.search.pending)
      _ |>.Perm (new ++ (W.popped ++ W.search.pending)) := by
        rw [← List.append_assoc, ← List.append_assoc]
        exact List.perm_append_comm.append_right _
      _ |>.Perm (new ++ W.pushed) := h.perm.append_left new
  · rcases List.mem_append.1 hU with hU | hU
    · obtain ⟨rfl, hne⟩ := hnew U hU
      have hreachable := h.reachable S (h.perm.subset (List.mem_append_left _ hS))
      exact .step hreachable hadv hne
    · exact h.reachable U hU
  · cases hU
    exact hS

/-- **Every action keeps the account.** -/
theorem act (h : m.Account W) (hact : m.act? limit W = some W') : m.Account W' := by
  cases hstage : W.stage with
  | idle =>
    rcases hpending : W.search.pending with - | ⟨S, rest⟩
    · rw [act?_of_pending_eq_nil hstage hpending] at hact
      cases hact
    · rw [act?_of_pending_eq_cons hstage hpending] at hact
      cases hact
      exact h.pop hpending _ fun T xs hT ↦ eq_of_opening_eq_trying hT
  | trying S xs =>
    rcases xs with - | ⟨x, xs⟩
    · rw [act?_of_trying_nil hstage] at hact
      cases hact
      exact h.withStage _ nofun
    · rcases hq : (do W.search.discover limit (← m.advance S x)) with e | q
      · rw [act?_of_error hstage hq] at hact
        cases hact
        exact h.withStage _ nofun
      · rw [act?_of_ok hstage hq] at hact
        cases hact
        exact h.tried hstage hq
  | failed e =>
    rw [act?_of_failed hstage] at hact
    cases hact

/-- No more sets are taken off than there are sets of states. -/
theorem length_popped_le (h : m.Account W) : W.popped.length ≤ 2 ^ m.size := by
  calc W.popped.length ≤ (W.popped ++ W.search.pending).length := by
        rw [List.length_append]
        exact Nat.le_add_right _ _
    _ = W.pushed.length := h.perm.length_eq
    _ ≤ 2 ^ m.size := StateSet.length_le_two_pow h.nodup fun S hS ↦
        SearchInvariant.capacity_of_reachable (h.reachable S hS)

end Account

/-- The account is kept from the beginning on. -/
theorem Works.account (h : m.Works limit W) : m.Account W := by
  induction h with
  | initial => exact account_initial m
  | act _ hact ih => exact ih.act hact

/-! ### The actions come to an end -/

/-- **The symbols are tried one after the other**, up to the first failure. -/
theorem Works.exists_tried (h : m.Works limit W) (hstage : W.stage = .trying S xs) :
    ∃ W', m.Works limit W' ∧
      W'.Shows (xs.foldlM (fun q x ↦ do q.discover limit (← m.advance S x)) W.search) := by
  induction xs generalizing W with
  | nil => exact ⟨_, h.act (act?_of_trying_nil hstage), rfl, rfl⟩
  | cons x xs ih =>
    rw [List.foldlM_cons]
    rcases hq : (do W.search.discover limit (← m.advance S x) : Except AmbiguityError Search)
      with e | q
    · exact ⟨_, h.act (act?_of_error hstage hq), rfl⟩
    · exact ih (h.act (act?_of_ok hstage hq)) rfl

/-- **A pending set is taken off and expanded.** -/
theorem Works.exists_expanded (h : m.Works limit W) (hstage : W.stage = .idle)
    (hpending : W.search.pending = S :: rest) :
    ∃ W', m.Works limit W' ∧
      W'.Shows (m.expand limit S { W.search with pending := rest }) := by
  have hworks := h.act (act?_of_pending_eq_cons hstage hpending)
  rw [expand]
  rcases hacc : m.checkAcceptance S with e | ⟨⟩
  · rw [opening, hacc] at hworks
    exact ⟨_, hworks, rfl⟩
  · rw [opening, hacc] at hworks
    exact hworks.exists_tried rfl

/-- **No action is left after finitely many**, and then the outcome of the exploration is shown. -/
theorem Works.exists_done {fuel : Nat} (h : m.Works limit W) (hstage : W.stage = .idle)
    (hq : m.SearchInvariant W.search)
    (hfuel : W.search.seen.size + fuel = 2 ^ m.size + W.search.pending.length) :
    ∃ W', m.Works limit W' ∧ m.act? limit W' = none ∧
      W'.Shows (m.exploreFrom limit fuel W.search) := by
  induction fuel generalizing W with
  | zero =>
    have hle := hq.size_le
    -- all sets that exist are seen, so none is pending
    have hpending : W.search.pending = [] := List.length_eq_zero_iff.1 (by omega)
    exact ⟨W, h, act?_of_pending_eq_nil hstage hpending, rfl, hstage⟩
  | succ fuel ih =>
    rw [exploreFrom]
    rcases hpending : W.search.pending with - | ⟨S, rest⟩
    · exact ⟨W, h, act?_of_pending_eq_nil hstage hpending, rfl, hstage⟩
    · obtain ⟨W₁, hworks, hshows⟩ := h.exists_expanded hstage hpending
      dsimp only
      rcases hexpand : m.expand limit S { W.search with pending := rest } with e | q
      · rw [hexpand] at hshows
        exact ⟨W₁, hworks, act?_of_failed hshows, hshows⟩
      · rw [hexpand] at hshows
        obtain ⟨rfl, hstage₁⟩ := hshows
        obtain ⟨hq₁, hsize⟩ := hq.expand hpending hexpand
        rw [hpending, List.length_cons] at hfuel
        exact ih hworks hstage₁ hq₁ (by omega)

/-- From the beginning on, the actions lead to the outcome of the exploration. -/
theorem exists_works_shows (m : Transducer) (limit : Option Nat) :
    ∃ W, m.Works limit W ∧ m.act? limit W = none ∧ W.Shows (m.explore limit) := by
  refine Works.initial.exists_done rfl m.searchInvariant_initial ?_
  show ({m.initialSet} : Std.TreeSet StateSet).size + 2 ^ m.size = 2 ^ m.size + 1
  rw [size_initial, Nat.add_comm]

/-- **The work list ends and covers everything.** As long as there are actions, no more sets are
taken off than there are sets of states, and no set is put onto the list twice. After finitely many
actions none is left, and the verdict stands. If it is that the machine is functional, the found
sets are those that can be active, over all symbols; no two members of them accept, and over every
symbol they advance. -/
theorem works_bounded_and_complete (m : Transducer) (limit : Option Nat) :
    (∀ W, m.Works limit W → W.popped.length ≤ 2 ^ m.size ∧ W.pushed.Nodup ∧
      (W.popped ++ W.search.pending).Perm W.pushed) ∧
    ∃ W, m.Works limit W ∧ m.act? limit W = none ∧
      W.verdict = m.checkFunctionalWithin limit ∧
      (W.verdict = .ok () → (∀ S, S ∈ W.search.seen ↔ m.Reachable S) ∧
        ∀ S ∈ W.search.seen, m.checkAcceptance S = .ok () ∧ ∀ x, ∃ T, m.advance S x = .ok T) := by
  refine ⟨fun W hW ↦ ?_, ?_⟩
  · have haccount := hW.account
    exact ⟨haccount.length_popped_le, haccount.nodup, haccount.perm⟩
  · obtain ⟨W, hworks, hdone, hshows⟩ := m.exists_works_shows limit
    have hverdict : W.verdict = m.checkFunctionalWithin limit := hshows.verdict_eq
    refine ⟨W, hworks, hdone, hverdict, fun hok ↦ ?_⟩
    have hcheck : m.checkFunctionalWithin limit = .ok () := hverdict.symm.trans hok
    obtain ⟨q, hexplore⟩ := checkFunctionalWithin_eq_ok_iff.1 hcheck
    rw [hexplore] at hshows
    obtain ⟨rfl, -⟩ := hshows
    -- the sets seen when nothing is pending are the reachable ones
    obtain ⟨hq, hpending⟩ := searchInvariant_of_explore hexplore
    have hfree := conflictFree_of_checkFunctionalWithin hcheck
    have hseen : ∀ S, S ∈ W.search.seen ↔ m.Reachable S := fun S ↦
      hq.mem_seen_iff_reachable hpending
    refine ⟨hseen, fun S hS ↦ ?_⟩
    have hreachable := (hseen S).1 hS
    exact ⟨hfree.acceptance hreachable, hfree.advance hreachable⟩

end Transducer

end Transduction
