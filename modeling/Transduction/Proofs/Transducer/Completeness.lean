import Transduction.Proofs.Transducer.Lockstep

/-!
# What the check decides

A set that can be active is active after some word: every member is led to by a computation over
that word (`Reachable.exists_run`). A conflict of the set is therefore a pair of computations over
one word, to two states that accept or along two edges into one state. If acceptance can still be
reached from there, it is completed to two accepting computations.

So in a machine whose edges all lead to live states, the check decides whether some word has two
accepting computations (`conflictFree_iff`). Without that proviso it can refuse more: a conflict
from which no word is accepted is a conflict all the same.
-/

namespace Transduction.Transducer

variable {m : Transducer} {S T : StateSet} {s t : StateId} {x : Symbol} {w : List Symbol}

/-- Some word leads from the state to a state that accepts. -/
def Live (m : Transducer) (s : StateId) : Prop :=
  ∃ w is t o f, m.Run s w is t o ∧ m.final? t = some f

/-- **A set that can be active is active after some word.** -/
theorem Reachable.exists_run (h : m.Reachable S) :
    ∃ w, ∀ s ∈ S, ∃ is o, m.Run m.initial w is s o := by
  obtain ⟨w, hw⟩ := h.exists_advanceWord
  exact ⟨w, fun s hs ↦ reaches_of_advanceWord hw hs⟩

/-- Two members that accept give two accepting computations over one word. -/
theorem checkAcceptance_of_unique (h : m.Reachable S)
    (hunique : ∀ w is js o p, m.AcceptingRun w is o → m.AcceptingRun w js p → is = js) :
    m.checkAcceptance S = .ok () := by
  rcases hcheck : m.checkAcceptance S with e | -
  · obtain ⟨s, t, f, g, -, hlt, ⟨hs, hf⟩, ht, hg⟩ := members_of_checkAcceptance hcheck
    obtain ⟨w, hw⟩ := h.exists_run
    obtain ⟨is, o, hrun⟩ := hw s hs
    obtain ⟨js, p, hrun'⟩ := hw t ht
    have heq : is = js := hunique w is js _ _ ⟨s, o, f, hrun, hf, rfl⟩ ⟨t, p, g, hrun', hg, rfl⟩
    subst heq
    exact absurd (hrun.eq_of_indices hrun').1 (Nat.ne_of_lt hlt)
  · rfl

/-- Two edges into one live state give two accepting computations over one word. -/
theorem exists_advance_of_unique (h : m.Reachable S)
    (hlive : ∀ s, ∀ e ∈ m.edges s, m.Live e.target)
    (hunique : ∀ w is js o p, m.AcceptingRun w is o → m.AcceptingRun w js p → is = js)
    (x : Symbol) : ∃ T, m.advance S x = .ok T := by
  rcases hadv : m.advance S x with e | T
  · obtain ⟨s, s', t, i, j, -, hs, hs', -, hne, ⟨e, he, hx, htarget⟩, ⟨e', he', hx', htarget'⟩⟩ :=
      leads_of_advance_error hadv
    obtain ⟨v, ks, u, q, f, hrest, hf⟩ := hlive s e (Array.mem_of_getElem? he)
    -- the rest of the word is read alike after either edge
    have hrest' : m.Run e'.target v ks u q := by
      rw [htarget', ← htarget]
      exact hrest
    obtain ⟨w, hw⟩ := h.exists_run
    obtain ⟨is, o, hrun⟩ := hw s hs
    obtain ⟨js, p, hrun'⟩ := hw s' hs'
    have hindices : is ++ i :: ks = js ++ j :: ks := hunique (w ++ x :: v) _ _ _ _
      ⟨u, _, f, hrun.append (.cons he hx hrest), hf, rfl⟩
      ⟨u, _, f, hrun'.append (.cons he' hx' hrest'), hf, rfl⟩
    have hlength : is.length = js.length := by
      rw [hrun.length_indices, hrun'.length_indices]
    obtain ⟨rfl, hcons⟩ := List.append_inj hindices hlength
    obtain ⟨rfl, -⟩ := List.cons.inj hcons
    obtain ⟨rfl, -⟩ := hrun.eq_of_indices hrun'
    exact absurd rfl hne
  · exact ⟨T, rfl⟩

/-- **Where every edge leads to a live state, conflicts are words with two accepting
computations.** -/
theorem conflictFree_iff (hlive : ∀ s, ∀ e ∈ m.edges s, m.Live e.target) :
    m.ConflictFree ↔
      ∀ w is js o p, m.AcceptingRun w is o → m.AcceptingRun w js p → is = js := by
  constructor
  · intro hm w is js o p his hjs
    exact hm.acceptingRun_unique his hjs
  · intro hunique
    exact ⟨fun hS ↦ checkAcceptance_of_unique hS hunique,
      fun hS x ↦ exists_advance_of_unique hS hlive hunique x⟩

end Transduction.Transducer
