import Transduction.Text.Bytes

/-!
# Cutting texts by bytes

A text can be cut after a number of bytes exactly when some of its characters take as many
(`cutAt?_eq_some_iff`), which is when the place is valid in the text stored as UTF-8
(`isSome_cutAt?_iff`). So an end of a text can be split off by its number of bytes, whatever the
characters before it are (`splitOff?_append`), and the common end that is found by counting bytes is
the longest one (`commonSuffixByBytes?_eq`).
-/

namespace Transduction.Output

variable {out a b : Output} {n : Nat}

@[simp] theorem byteLength_append (a b : Output) :
    byteLength (a ++ b) = a.byteLength + b.byteLength := by
  induction a with
  | nil => rw [List.nil_append, byteLength, Nat.zero_add]
  | cons c a ih => rw [List.cons_append, byteLength, byteLength, ih, Nat.add_assoc]

@[simp] theorem byteLength_reverse (out : Output) :
    byteLength out.reverse = out.byteLength := by
  induction out with
  | nil => rfl
  | cons c out ih =>
    rw [List.reverse_cons, byteLength_append, ih, byteLength, byteLength, byteLength, Nat.add_zero,
      Nat.add_comm]

/-- Every character takes a byte. -/
theorem byteLength_eq_zero_iff : out.byteLength = 0 ↔ out = [] := by
  rcases out with - | ⟨c, out⟩
  · exact iff_of_true rfl rfl
  · have hpos := c.utf8Size_pos
    rw [byteLength]
    exact iff_of_false (by omega) (List.cons_ne_nil c out)

/-- A text is cut between any two parts of it. -/
theorem cutAt?_append (a b : Output) : (a ++ b).cutAt? a.byteLength = some (a, b) := by
  induction a with
  | nil => rw [List.nil_append, byteLength, cutAt?]
  | cons c a ih =>
    obtain ⟨k, hk⟩ : ∃ k, byteLength (c :: a) = k + 1 :=
      Nat.exists_eq_succ_of_ne_zero (mt byteLength_eq_zero_iff.1 (List.cons_ne_nil c a))
    have hcons : byteLength (c :: a) = c.utf8Size + byteLength a := rfl
    have hrest : k + 1 - c.utf8Size = byteLength a := by omega
    rw [List.cons_append, hk, cutAt?, if_pos (by omega), hrest, ih]
    rfl

/-- **A text can be cut between its characters, and nowhere else.** -/
theorem cutAt?_eq_some_iff : out.cutAt? n = some (a, b) ↔ out = a ++ b ∧ n = a.byteLength := by
  refine ⟨fun h ↦ ?_, ?_⟩
  · fun_induction cutAt? out n generalizing a b with
    | case1 =>
      cases h
      exact ⟨rfl, rfl⟩
    | case2 => cases h
    | case3 c out n hle ih =>
      obtain ⟨⟨before, after⟩, hcut, heq⟩ := Option.map_eq_some_iff.1 h
      cases heq
      obtain ⟨rfl, hn⟩ := ih hcut
      refine ⟨rfl, ?_⟩
      rw [byteLength]
      omega
    | case4 => cases h
  · rintro ⟨rfl, rfl⟩
    exact cutAt?_append a b

/-! ### Texts as they are stored -/

/-- The number of bytes is that of the text stored as UTF-8. -/
theorem byteLength_eq (out : Output) : out.byteLength = (String.ofList out).utf8ByteSize := by
  induction out with
  | nil => rfl
  | cons c out ih =>
    have hcons : String.ofList (c :: out) = String.singleton c ++ String.ofList out := by
      rw [String.singleton_eq_ofList, ← String.ofList_append]
      rfl
    rw [byteLength, hcons, String.utf8ByteSize_append, String.utf8ByteSize_singleton, ih]

/-- **A text can be cut where its storage can.** -/
theorem isSome_cutAt?_iff :
    (out.cutAt? n).isSome ↔ String.Pos.Raw.IsValid (String.ofList out) ⟨n⟩ := by
  rw [String.Pos.Raw.isValid_ofList, Option.isSome_iff_exists]
  constructor
  · rintro ⟨⟨a, b⟩, hcut⟩
    obtain ⟨rfl, rfl⟩ := cutAt?_eq_some_iff.1 hcut
    refine ⟨a.length, ?_⟩
    rw [List.take_left, ← byteLength_eq]
  · rintro ⟨i, hi⟩
    rw [← byteLength_eq] at hi
    exact ⟨(out.take i, out.drop i),
      cutAt?_eq_some_iff.2 ⟨(List.take_append_drop i out).symm, hi⟩⟩

/-! ### Ends -/

/-- **An end is split off by its number of bytes.** -/
theorem splitOff?_append (a b : Output) : (a ++ b).splitOff? b.byteLength = some (a, b) := by
  rw [splitOff?, byteLength_append, if_pos (Nat.le_add_left _ _), Nat.add_sub_cancel,
    cutAt?_append]

/-- What agrees from the front on is the longest common beginning. -/
theorem map_fst_takeWhile_zip (a b : Output) :
    ((a.zip b).takeWhile fun (c, d) ↦ c = d).map Prod.fst = commonPrefix a b := by
  fun_induction commonPrefix a b with
  | case1 c a b ih => simp [ih]
  | case2 c a d b hne => simp [hne]
  | case3 a b hnil =>
    -- one of the lists is over
    rcases a with - | ⟨c, a⟩
    · rfl
    rcases b with - | ⟨d, b⟩
    · rfl
    exact (hnil c a d b rfl rfl).elim

/-- The bytes that are counted from the end are those of the common end. -/
theorem commonBytes_eq (a b : Output) : commonBytes a b = (commonSuffix a b).byteLength := by
  rw [commonBytes, map_fst_takeWhile_zip, commonSuffix, byteLength_reverse]

/-- **Counting bytes finds the longest common end.** -/
theorem commonSuffixByBytes?_eq (a b : Output) :
    commonSuffixByBytes? a b = some (commonSuffix a b) := by
  obtain ⟨p, hp⟩ := commonSuffix_isSuffix_left a b
  have hsplit := splitOff?_append p (commonSuffix a b)
  rw [commonSuffixByBytes?, commonBytes_eq]
  rw [hp] at hsplit
  rw [hsplit]
  rfl

/-- Two characters that end with the same byte have no common end. -/
example : commonSuffixByBytes? ['ö', 'ä'] ['¶', 'ä'] = some ['ä'] := by decide

end Transduction.Output
