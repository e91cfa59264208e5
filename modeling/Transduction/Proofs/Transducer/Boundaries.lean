import Transduction.Proofs.Transducer.Advance

/-!
# Boundaries stand for all symbols

The symbols fall into intervals, each of which begins at a boundary of the set and ends before the
next one. The first interval begins at zero, so every symbol lies in one; the last one ends with the
last symbol, which has no symbol after it. A boundary stands for its interval: over any symbol of
the interval every member has the same matches, and the set advances as it does over the boundary,
to the same set or to a failure that names the same states (`exists_representative`).

The two failures are not equal, since a failure also names the symbol that was tried. This is the
only difference.
-/

namespace Transduction.Transducer

variable {m : Transducer} {S : StateSet} {x y : Symbol}

/-- The boundaries of a set ascend, and there is none twice. -/
theorem pairwise_boundaries (m : Transducer) (S : StateSet) :
    (m.boundaries S).Pairwise (· < ·) :=
  Ascending.pairwise_distinct _

/-- The first boundary is zero. -/
theorem head?_boundaries (m : Transducer) (S : StateSet) : (m.boundaries S).head? = some 0 := by
  have hmem := zero_mem_boundaries m S
  have hascending := pairwise_boundaries m S
  rcases hlist : m.boundaries S with - | ⟨b, rest⟩
  · rw [hlist] at hmem
    exact absurd hmem List.not_mem_nil
  · rw [hlist] at hmem hascending
    rcases List.mem_cons.1 hmem with rfl | hrest
    · rfl
    · exact absurd (List.rel_of_pairwise_cons hascending hrest) UInt32.not_lt_zero

/-- Over symbols with the same arrivals a set advances alike, and it fails alike. -/
theorem advance_cases_of_arrivals_eq
    (h : m.arrivals S.members x = m.arrivals S.members y) :
    (∃ T, m.advance S x = .ok T ∧ m.advance S y = .ok T) ∨
      ∃ s t target, m.advance S x = .error (.transitions s t target x) ∧
        m.advance S y = .error (.transitions s t target y) := by
  rw [advance, advance, h]
  rcases clash? (m.arrivals S.members y) with - | ⟨a, c⟩
  · exact .inl ⟨_, rfl, rfl⟩
  · exact .inr ⟨a.source, c.source, c.target, rfl, rfl⟩

/-- **Every symbol is represented by a boundary**, the greatest one that is not above it: there,
every member of the set has the same matches, and the set advances alike. -/
theorem exists_representative (m : Transducer) (S : StateSet) (x : Symbol) :
    (m.boundaries S).Pairwise (· < ·) ∧ (m.boundaries S).head? = some 0 ∧
      ∃ b ∈ m.boundaries S, b ≤ x ∧ (∀ c ∈ m.boundaries S, c ≤ x → c ≤ b) ∧
        (∀ s ∈ S, m.matching s b = m.matching s x) ∧
        ((∃ T, m.advance S b = .ok T ∧ m.advance S x = .ok T) ∨
          ∃ s t target, m.advance S b = .error (.transitions s t target b) ∧
            m.advance S x = .error (.transitions s t target x)) := by
  obtain ⟨b, hb, hbx, hgreatest⟩ := exists_greatest_boundary m S x
  have hmatching : ∀ s ∈ S, m.matching s b = m.matching s x := fun s hs ↦
    matching_eq_of_boundary hbx hgreatest hs
  have harrivals : m.arrivals S.members b = m.arrivals S.members x :=
    arrivals_eq_of_boundary hbx hgreatest
  exact ⟨pairwise_boundaries m S, head?_boundaries m S, b, hb, hbx, hgreatest, hmatching,
    advance_cases_of_arrivals_eq harrivals⟩

/-- An edge up to the last symbol has no boundary above it. -/
example : (ofRows [([⟨⟨10, 0xFFFFFFFF⟩, 0, []⟩, ⟨⟨10, 19⟩, 0, []⟩], none)] 0 (by decide)
    (by decide)).boundaries (.singleton 1 0 (by decide)) = [0, 10, 20] := by decide +kernel

end Transduction.Transducer
