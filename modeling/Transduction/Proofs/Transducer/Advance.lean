import Mathlib.Data.Finset.Max
import Transduction.Proofs.Transducer.Arrivals
import Transduction.Transducer.Reachable

/-!
# Advancing a set of states

`advance` succeeds exactly when no state is entered twice (`advance_eq_ok_iff`), and then gives the
set of all states that are entered (`mem_of_advance`). `checkAcceptance` succeeds exactly when at
most one member accepts.

**Boundaries are enough.** Let `b` be the greatest boundary of a set that is not greater than `x`.
Every edge of a member reads `b` exactly when it reads `x` (`mem_range_iff_of_boundary`): its least
symbol is a boundary, so `b` is not below it if `x` is not; and the symbol after its greatest one is
a boundary, unless there is none, so `x` is not above it if `b` is not. Hence the arrivals over `b`
and over `x` are the same list, and one advances as the other does (`exists_boundary_advance`).
-/

namespace Transduction

/-- The next symbol is the next number. -/
theorem Symbol.toNat_of_next? {x y : Symbol} (h : x.next? = some y) : y.toNat = x.toNat + 1 := by
  rw [next?] at h
  split at h
  · cases h
  · next hne =>
    cases h
    have hlt : x.toNat < 2 ^ 32 := x.toNat_lt
    have hne : x.toNat ≠ 0xFFFFFFFF := fun heq ↦ hne (UInt32.toNat_inj.1 heq)
    rw [UInt32.toNat_add]
    exact Nat.mod_eq_of_lt (by simp only [UInt32.toNat_one]; omega)

/-- Below a symbol, there is a next one. -/
theorem Symbol.exists_next? {x y : Symbol} (h : x < y) : ∃ z, x.next? = some z ∧ z ≤ y := by
  have hne : x ≠ 0xFFFFFFFF := by
    rintro rfl
    have hy : y.toNat < 2 ^ 32 := y.toNat_lt
    have hlt : (0xFFFFFFFF : UInt32).toNat < y.toNat := UInt32.lt_iff_toNat_lt.1 h
    simp only [UInt32.reduceToNat] at hlt
    omega
  have hnext : x.next? = some (x + 1) := if_neg hne
  refine ⟨x + 1, hnext, UInt32.le_iff_toNat_le.2 ?_⟩
  rw [toNat_of_next? hnext]
  exact UInt32.lt_iff_toNat_lt.1 h

theorem StateSet.nodup_members (S : StateSet) : S.members.Nodup :=
  S.ascending.imp Nat.ne_of_lt

theorem StateSet.isEmpty_iff {S : StateSet} : S.isEmpty ↔ S.members = [] :=
  List.isEmpty_iff

/-- A set is determined by its capacity and its members. -/
theorem StateSet.ext_mem {S T : StateSet} (hcapacity : S.capacity = T.capacity)
    (hmem : ∀ s, s ∈ S ↔ s ∈ T) : S = T := by
  have hperm : S.members.Perm T.members :=
    (List.perm_ext_iff_of_nodup S.nodup_members T.nodup_members).2 hmem
  have hmembers : S.members = T.members :=
    hperm.eq_of_pairwise (fun _ _ _ _ hab hba ↦ absurd hba (Nat.lt_asymm hab)) S.ascending
      T.ascending
  cases S
  cases T
  cases hcapacity
  cases hmembers
  rfl

namespace Transducer

variable {m : Transducer}

/-! ### Acceptance -/

/-- The acceptance of a set is sound if one member accepts at most. -/
theorem checkAcceptance_eq_ok_iff {S : StateSet} :
    m.checkAcceptance S = .ok () ↔ (m.accepting S.members).length ≤ 1 := by
  rw [checkAcceptance]
  rcases m.accepting S.members with _ | ⟨x, _ | ⟨y, l⟩⟩ <;> simp

/-- What a failed acceptance check names: two members, in their order, that accept. -/
theorem sublist_of_checkAcceptance {S : StateSet} {e : AmbiguityError}
    (h : m.checkAcceptance S = .error e) :
    ∃ s t f g, e = .acceptance s t f g ∧ [(s, f), (t, g)].Sublist (m.accepting S.members) := by
  rw [checkAcceptance] at h
  split at h
  · next x y l heq =>
    cases h
    exact ⟨x.1, y.1, x.2, y.2, rfl, heq ▸ ((List.nil_sublist l).cons_cons y).cons_cons x⟩
  · cases h

/-- The members that a failed acceptance check names stand in ascending order, and the outputs that
it shows are their final outputs. -/
theorem members_of_checkAcceptance {S : StateSet} {e : AmbiguityError}
    (h : m.checkAcceptance S = .error e) :
    ∃ s t f g, e = .acceptance s t f g ∧ s < t ∧ (s ∈ S ∧ m.final? s = some f) ∧
      t ∈ S ∧ m.final? t = some g := by
  obtain ⟨s, t, f, g, he, hsub⟩ := sublist_of_checkAcceptance h
  have hlt : s < t :=
    List.rel_of_pairwise_cons (S.ascending.sublist (sublist_of_sublist_accepting hsub))
      List.mem_cons_self
  exact ⟨s, t, f, g, he, hlt, mem_accepting.1 (hsub.subset List.mem_cons_self),
    mem_accepting.1 (hsub.subset (List.mem_cons_of_mem _ List.mem_cons_self))⟩

/-! ### Advancing -/

/-- **A set advances exactly if no state is entered twice**, and then to the states that are
entered. -/
theorem advance_eq_ok_iff {S T : StateSet} {x : Symbol} :
    m.advance S x = .ok T ↔ ((m.arrivals S.members x).map (·.target)).Nodup ∧
      T = StateSet.ofList m.size ((m.arrivals S.members x).map (·.target)) := by
  rw [advance, ← clash?_eq_none_iff]
  cases clash? (m.arrivals S.members x) with
  | none => simp [eq_comm]
  | some ab => simp

/-- **A set advances to the set of the states that its members enter.** -/
theorem mem_of_advance {S T : StateSet} {x : Symbol} (h : m.advance S x = .ok T) {t : StateId} :
    t ∈ T ↔ ∃ s ∈ S, ∃ (i : Nat) (e : Edge), (m.edges s)[i]? = some e ∧ x ∈ e.range ∧
      e.target = t := by
  rw [(advance_eq_ok_iff.1 h).2, StateSet.mem_ofList, List.mem_map]
  refine ⟨fun h' ↦ ?_, fun h' ↦ ?_⟩
  · obtain ⟨⟨a, ha, rfl⟩, -⟩ := h'
    obtain ⟨hs, e, he, hx, htarget⟩ := mem_arrivals.1 ha
    exact ⟨a.source, hs, a.index, e, he, hx, htarget⟩
  · obtain ⟨s, hs, i, e, he, hx, rfl⟩ := h'
    exact ⟨⟨⟨s, i, e.target⟩, mem_arrivals.2 ⟨hs, e, he, hx, rfl⟩, rfl⟩, target_lt_size he⟩

theorem capacity_of_advance {S T : StateSet} {x : Symbol} (h : m.advance S x = .ok T) :
    T.capacity = m.size := by
  rw [(advance_eq_ok_iff.1 h).2]
  rfl

/-- What a failed advance names: two different arrivals at one state. -/
theorem arrivals_of_advance_error {S : StateSet} {x : Symbol} {e : AmbiguityError}
    (h : m.advance S x = .error e) :
    ∃ a b : Arrival, e = .transitions a.source b.source b.target x ∧
      [a, b].Sublist (m.arrivals S.members x) ∧ a ≠ b ∧ a.target = b.target := by
  rw [advance] at h
  split at h
  · next a b hclash =>
    cases h
    obtain ⟨hsub, htarget⟩ := sublist_of_clash? hclash
    have hne := List.rel_of_pairwise_cons ((nodup_arrivals S.nodup_members x).sublist hsub)
      List.mem_cons_self
    exact ⟨a, b, rfl, hsub, hne, htarget⟩
  · cases h

/-- Symbols with the same arrivals advance a set alike. -/
theorem advance_congr {S : StateSet} {x y : Symbol}
    (h : m.arrivals S.members x = m.arrivals S.members y) {T : StateSet} :
    m.advance S x = .ok T ↔ m.advance S y = .ok T := by
  rw [advance_eq_ok_iff, advance_eq_ok_iff, h]

/-! ### Boundaries -/

theorem zero_mem_boundaries (m : Transducer) (S : StateSet) : 0 ∈ m.boundaries S :=
  Ascending.mem_distinct.2 List.mem_cons_self

/-- The least symbol that an edge of a member reads is a boundary, and so is the one after the
greatest. -/
theorem mem_boundaries_of_edge {S : StateSet} {s : StateId} (hs : s ∈ S) {e : Edge}
    (he : e ∈ m.edges s) {x : Symbol} (hx : x = e.range.lower ∨ e.range.upper.next? = some x) :
    x ∈ m.boundaries S := by
  refine Ascending.mem_distinct.2 (List.mem_cons_of_mem 0 ?_)
  refine List.mem_flatMap.2 ⟨s, hs, List.mem_flatMap.2 ⟨e, Array.mem_toList_iff.2 he, ?_⟩⟩
  rcases hx with rfl | hx
  · exact List.mem_cons_self
  · exact List.mem_cons_of_mem _ (by simp [hx])

/-- Below every symbol there is a greatest boundary. -/
theorem exists_greatest_boundary (m : Transducer) (S : StateSet) (x : Symbol) :
    ∃ b ∈ m.boundaries S, b ≤ x ∧ ∀ c ∈ m.boundaries S, c ≤ x → c ≤ b := by
  have hzero : 0 ∈ ((m.boundaries S).filter (· ≤ x)).toFinset := by
    simpa using zero_mem_boundaries m S
  obtain ⟨b, hb, hmax⟩ := Finset.exists_max_image _ UInt32.toNat ⟨0, hzero⟩
  simp only [List.mem_toFinset, List.mem_filter, decide_eq_true_iff] at hb hmax
  exact ⟨b, hb.1, hb.2, fun c hc hcx ↦ UInt32.le_iff_toNat_le.2 (hmax c ⟨hc, hcx⟩)⟩

/-- **Between two boundaries nothing changes.** -/
theorem mem_range_iff_of_boundary {S : StateSet} {b x : Symbol} (hbx : b ≤ x)
    (hmax : ∀ c ∈ m.boundaries S, c ≤ x → c ≤ b) {s : StateId} (hs : s ∈ S) {e : Edge}
    (he : e ∈ m.edges s) : b ∈ e.range ↔ x ∈ e.range := by
  rw [SymbolRange.mem_def, SymbolRange.mem_def]
  refine ⟨fun h ↦ ?_, fun h ↦ ?_⟩
  · obtain ⟨hl, hu⟩ := h
    refine ⟨UInt32.le_trans hl hbx, UInt32.not_lt.1 fun hux ↦ ?_⟩
    obtain ⟨y, hy, hyx⟩ := Symbol.exists_next? hux
    have hyb : y ≤ b := hmax y (mem_boundaries_of_edge hs he (.inr hy)) hyx
    have hyu : y.toNat ≤ e.range.upper.toNat :=
      UInt32.le_iff_toNat_le.1 (UInt32.le_trans hyb hu)
    rw [Symbol.toNat_of_next? hy] at hyu
    omega
  · obtain ⟨hl, hu⟩ := h
    exact ⟨hmax _ (mem_boundaries_of_edge hs he (.inl rfl)) hl, UInt32.le_trans hbx hu⟩

/-- A member has the same matches at a symbol as at the greatest boundary below it. -/
theorem matching_eq_of_boundary {S : StateSet} {b x : Symbol} (hbx : b ≤ x)
    (hmax : ∀ c ∈ m.boundaries S, c ≤ x → c ≤ b) {s : StateId} (hs : s ∈ S) :
    m.matching s b = m.matching s x := by
  rw [matching_eq_filter, matching_eq_filter]
  refine List.filter_congr fun e he ↦ ?_
  have hmem : e.1 ∈ m.edges s :=
    Array.mem_toList_iff.1 (List.fst_mem_of_mem_zipIdx (List.mem_reverse.1 he))
  exact decide_eq_decide.2 (mem_range_iff_of_boundary hbx hmax hs hmem)

/-- So the set has the same arrivals. -/
theorem arrivals_eq_of_boundary {S : StateSet} {b x : Symbol} (hbx : b ≤ x)
    (hmax : ∀ c ∈ m.boundaries S, c ≤ x → c ≤ b) :
    m.arrivals S.members b = m.arrivals S.members x := by
  rw [arrivals, arrivals, List.flatMap_def, List.flatMap_def]
  refine congrArg List.flatten (List.map_congr_left fun s hs ↦ ?_)
  rw [matching_eq_of_boundary hbx hmax hs]

/-- If a set advances over its boundaries, it advances over every symbol, and to no other set. -/
theorem exists_boundary_advance (m : Transducer) (S : StateSet) (x : Symbol) :
    ∃ b ∈ m.boundaries S, ∀ T, m.advance S b = .ok T ↔ m.advance S x = .ok T := by
  obtain ⟨b, hb, hbx, hmax⟩ := exists_greatest_boundary m S x
  exact ⟨b, hb, fun T ↦ advance_congr (arrivals_eq_of_boundary hbx hmax)⟩

end Transducer

end Transduction
