import Transduction.Proofs.Transducer.Lockstep

/-!
# Evaluation and the sets of a word

An evaluation lists the states of its frontier in the order in which it finds them and compares each
arrival with those before it; a set of states is advanced as a whole. Both keep the same states, so
each says what the other does.

One direction is that the sets of a word advance as far as it is read
(`exists_advanceWord_of_advanceAll`); the other one is `exists_advanceAll_of_advanceWord`. Hence the
sets stop over a symbol exactly when evaluation finds two ways into one state there
(`stopsAt_iff`). A word whose sets do not stop is answered by the number of members that accept:
none, one or more (`evaluate_of_advanceWord`).

So a machine passes the check exactly when it answers every word
(`checkFunctional_eq_ok_iff_evaluate`). The check itself evaluates no word, and the answers say
nothing of sets; this is what makes the verdict a property of the answers.
-/

namespace Transduction.Transducer

variable {m : Transducer} {S : StateSet} {frontier frontier' : List StateId} {t t' : Trellis}
  {w : List Symbol} {position : Nat}

/-! ### Reading and advancing -/

/-- **The sets of a word advance as far as the word is read.** -/
theorem exists_advanceWord_of_advanceAll (hperm : frontier.Perm S.members)
    (h : m.advanceAll position frontier t w = (.ok frontier', t')) :
    ∃ T, m.advanceWord S w = .ok T ∧ frontier'.Perm T.members := by
  induction w generalizing S frontier position t with
  | nil =>
    cases h
    exact ⟨S, rfl, hperm⟩
  | cons x w ih =>
    rw [advanceAll] at h
    rcases hclash : clash? (m.arrivals frontier x) with - | ⟨a, b⟩
    · rw [hclash] at h
      obtain ⟨U, hU⟩ := (clash?_frontier_eq_none_iff hperm).1 hclash
      obtain ⟨T, hT, hperm'⟩ := ih (perm_frontier_of_advance hperm hU) h
      exact ⟨T, bind_eq_ok_iff.2 ⟨U, hU, hT⟩, hperm'⟩
    · rw [hclash] at h
      cases h

/-- **The sets stop over a symbol exactly when evaluation fails there.** -/
theorem stopsAt_iff (m : Transducer) (w : List Symbol) (i : Nat) :
    m.StopsAt w i ↔ ∃ target s t, m.evaluate w = .error (.paths (i + 1) target s t) := by
  constructor
  · rintro ⟨S, x, e, hx, hword, hadv⟩
    obtain ⟨hlt, rfl⟩ := List.getElem?_eq_some_iff.1 hx
    have hlength : (w.take i).length = i := List.length_take_of_le (Nat.le_of_lt hlt)
    have hw : w.take i ++ [w[i]] ++ w.drop (i + 1) = w := by
      rw [List.take_append_getElem, List.take_append_drop]
    have hpaths := exists_evaluate_eq_paths hword hadv (w.drop (i + 1))
    rwa [hw, hlength] at hpaths
  · rintro ⟨target, s, s', heval⟩
    rcases hread : m.advanceAll 0 [m.initial] .empty w with ⟨e | frontier, t⟩
    · obtain rfl : e = .paths (i + 1) target s s' :=
        Except.error.inj ((evaluateWith_eq_error_of_advanceAll hread).symm.trans heval)
      -- the clash is at the first symbol that the sets cannot follow
      obtain ⟨u, x, v, frontier, a, b, rfl, hread', hclash, hpaths⟩ :=
        advanceAll_eq_error_cases hread
      obtain ⟨hposition, -⟩ := EvalError.paths.inj hpaths
      obtain rfl : i = u.length := by omega
      obtain ⟨S, hword, hperm⟩ :=
        exists_advanceWord_of_advanceAll (S := m.initialSet) (List.Perm.refl _) hread'
      rcases hadv : m.advance S x with e | T
      · refine ⟨S, x, e, ?_, ?_, hadv⟩
        · rw [List.getElem?_append_right (Nat.le_refl _), Nat.sub_self]
          rfl
        · rwa [List.take_left]
      · -- the set advances, so the frontier does not clash
        rw [(clash?_frontier_eq_none_iff hperm).2 ⟨T, hadv⟩] at hclash
        cases hclash
    · rcases evaluateWith_of_advanceAll hread with
        ⟨-, hr⟩ | ⟨_, _, _, _, -, -, hr⟩ | ⟨_, _, _, -, hr⟩ <;> cases hr.symm.trans heval

/-! ### Members that accept -/

theorem length_accepting_eq_zero_iff {states : List StateId} :
    (m.accepting states).length = 0 ↔ ∀ s ∈ states, m.final? s = none := by
  rw [List.length_eq_zero_iff, accepting, List.filterMap_eq_nil_iff]
  simp only [Option.map_eq_none_iff]

theorem length_accepting_eq_one_iff {states : List StateId} (h : states.Nodup) :
    (m.accepting states).length = 1 ↔ ∃! s, s ∈ states ∧ (m.final? s).isSome := by
  constructor
  · intro hone
    obtain ⟨⟨s, f⟩, hacc⟩ := List.length_eq_one_iff.1 hone
    obtain ⟨hs, hf⟩ := mem_accepting.1 (hacc ▸ List.mem_singleton_self (s, f))
    refine ⟨s, ⟨hs, Option.isSome_of_eq_some hf⟩, ?_⟩
    rintro t ⟨ht, hsome⟩
    obtain ⟨g, hg⟩ := Option.isSome_iff_exists.1 hsome
    have hmem : (t, g) ∈ m.accepting states := mem_accepting.2 ⟨ht, hg⟩
    rw [hacc, List.mem_singleton] at hmem
    exact congrArg Prod.fst hmem
  · rintro ⟨s, ⟨hs, hsome⟩, hunique⟩
    obtain ⟨f, hf⟩ := Option.isSome_iff_exists.1 hsome
    have hnodup : (m.accepting states).Nodup := (h.sublist (map_fst_accepting_sublist _)).of_map
    -- a state is listed once, so one that accepts gives one entry
    have hperm : (m.accepting states).Perm [(s, f)] := by
      refine (List.perm_ext_iff_of_nodup hnodup (List.nodup_singleton _)).2 fun ⟨t, g⟩ ↦ ?_
      rw [mem_accepting, List.mem_singleton]
      constructor
      · rintro ⟨ht, hg⟩
        obtain rfl := hunique t ⟨ht, Option.isSome_of_eq_some hg⟩
        rw [Option.some.inj (hg.symm.trans hf)]
      · rintro heq
        cases heq
        exact ⟨hs, hf⟩
    exact hperm.length_eq

/-- The acceptance of a set fails if two members accept. -/
theorem exists_checkAcceptance_eq_error_iff :
    (∃ e, m.checkAcceptance S = .error e) ↔ 2 ≤ (m.accepting S.members).length := by
  have hok := checkAcceptance_eq_ok_iff (m := m) (S := S)
  rcases h : m.checkAcceptance S with e | ⟨⟩
  · rw [h] at hok
    refine iff_of_true ⟨e, rfl⟩ (Nat.lt_of_not_le fun hle ↦ ?_)
    cases hok.2 hle
  · refine iff_of_false (fun ⟨_, he⟩ ↦ nomatch he) (Nat.not_le.2 ?_)
    exact Nat.lt_succ_of_le (hok.1 h)

/-- **A word whose sets advance is answered by the number of members that accept.** -/
theorem evaluate_of_advanceWord (h : m.advanceWord m.initialSet w = .ok S) :
    ((m.accepting S.members).length = 0 ∧ m.evaluate w = .ok none) ∨
      ((m.accepting S.members).length = 1 ∧ ∃ o, m.evaluate w = .ok (some o)) ∨
      (2 ≤ (m.accepting S.members).length ∧ ∃ s t, m.evaluate w = .error (.acceptance s t)) := by
  obtain ⟨frontier, t, hperm, hread⟩ :=
    exists_advanceAll_of_advanceWord (List.Perm.refl [m.initial]) h 0 .empty
  have hlength : (m.accepting frontier).length = (m.accepting S.members).length :=
    (hperm.filterMap _).length_eq
  rw [← hlength]
  rcases evaluateWith_of_advanceAll hread with
    ⟨hacc, heval⟩ | ⟨s, f, is, p, hacc, -, heval⟩ | ⟨x, y, l, hacc, heval⟩
  all_goals rw [hacc]
  · exact .inl ⟨rfl, heval⟩
  · exact .inr (.inl ⟨rfl, p ++ f, heval⟩)
  · exact .inr (.inr ⟨Nat.le_add_left 2 l.length, x.1, y.1, heval⟩)

/-! ### Lockstep -/

/-- **Evaluation and the sets of a word step together.** The sets stop over a symbol exactly when
evaluation finds two ways into one state there, and a word whose sets do not stop is answered
according to the members that accept. -/
theorem evaluate_lockstep (m : Transducer) (w : List Symbol) :
    (∀ i, m.StopsAt w i ↔ ∃ target s t, m.evaluate w = .error (.paths (i + 1) target s t)) ∧
      ∀ S, m.advanceWord m.initialSet w = .ok S →
        ((∃ s t, m.evaluate w = .error (.acceptance s t)) ↔ ∃ e, m.checkAcceptance S = .error e) ∧
        ((∃ o, m.evaluate w = .ok (some o)) ↔ ∃! s, s ∈ S ∧ (m.final? s).isSome) ∧
        (m.evaluate w = .ok none ↔ ∀ s ∈ S, m.final? s = none) := by
  refine ⟨m.stopsAt_iff w, fun S hS ↦ ?_⟩
  rw [exists_checkAcceptance_eq_error_iff]
  have hone := length_accepting_eq_one_iff (m := m) S.nodup_members
  have hzero := @length_accepting_eq_zero_iff m S.members
  simp only [StateSet.mem_def]
  rw [← hone, ← hzero]
  rcases evaluate_of_advanceWord hS with ⟨hlen, heval⟩ | ⟨hlen, o, heval⟩ | ⟨hlen, s, t, heval⟩ <;>
    rw [heval]
  · simp [hlen]
  · simp [hlen]
  · have hne : (m.accepting S.members).length ≠ 0 := by omega
    have hne' : (m.accepting S.members).length ≠ 1 := by omega
    simp [hlen, hne, hne']

/-- Over `a`, both states in the middle of the diamond are entered, and over `c` both lead on. -/
theorem diamond_lockstep :
    (diamond false).StopsAt [97, 99] 1 ∧
      (∃ target s t, (diamond false).evaluate [97, 99] = .error (.paths 2 target s t)) ∧
      (diamond true).advanceWord (diamond true).initialSet [97] = .ok (.ofList 4 [1, 2]) ∧
      ∃ s t, (diamond true).evaluate [97] = .error (.acceptance s t) := by
  have hstops : (diamond false).StopsAt [97, 99] 1 :=
    ⟨.ofList 4 [1, 2], 99, .transitions 1 2 3 99, rfl, by decide +kernel, by decide +kernel⟩
  have hword : (diamond true).advanceWord (diamond true).initialSet [97] =
      .ok (.ofList 4 [1, 2]) := by decide +kernel
  have hacc : (diamond true).checkAcceptance (.ofList 4 [1, 2]) =
      .error (.acceptance 1 2 ['.'] ['.']) := by decide +kernel
  refine ⟨hstops, ((evaluate_lockstep (diamond false) _).1 1).1 hstops, hword, ?_⟩
  exact ((evaluate_lockstep (diamond true) _).2 _ hword).1.2 ⟨_, hacc⟩

/-! ### The check, by answers -/

/-- **A machine passes the check exactly when it answers every word.** -/
theorem checkFunctional_eq_ok_iff_evaluate :
    m.checkFunctional = .ok () ↔ ∀ w, ∃ r, m.evaluate w = .ok r := by
  constructor
  · intro h w
    exact (conflictFree_of_checkFunctionalWithin h).exists_evaluateWith .empty w
  · intro h
    rcases hcheck : m.checkFunctional with e | ⟨⟩
    · -- the word of the set at which the check fails would have no answer
      obtain ⟨S, hS, hconflict⟩ := exists_conflict_of_checkFunctional hcheck
      obtain ⟨u, hu⟩ := hS.exists_advanceWord
      rcases hconflict with hacc | ⟨-, x, hadv⟩
      · obtain ⟨r, hr⟩ := h u
        obtain ⟨s, t, heval⟩ := exists_evaluate_eq_acceptance hu hacc
        cases hr.symm.trans heval
      · obtain ⟨r, hr⟩ := h (u ++ [x] ++ [])
        obtain ⟨target, s, t, heval⟩ := exists_evaluate_eq_paths hu hadv []
        cases hr.symm.trans heval
    · rfl

end Transduction.Transducer
