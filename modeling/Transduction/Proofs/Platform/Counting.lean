import Mathlib.Algebra.Ring.Nat
import Transduction.Platform
import Transduction.Proofs.PositionGraph.History

/-!
# Counting up to the end of a word

A counter that ends counts as one that does not, as long as it stays in a word. `Counting.Follows`
says so of a computation: where the unending counter stays in the word, the outcome and the counter
are the same, and where it leaves the word, a program that stops at the end has no outcome. Both
pass through a node, since the counter never falls, so they hold of numbering an expression
(`follows_number`) and of numbering several ones in turn (`attempts?_of_lt`,
`attempts_eq_of_checked`).

So a program that stops at the end tells whether there is an overflow, and where there is none, no
number is given twice (`attempts?_separate`). Where the counter is wrapped, numbers are given again.
-/

namespace Transduction

open PositionGraph

variable {P : Platform} {n : StateId} {es : List Expr}

/-! ### Computations -/

namespace Counting

variable {α β : Type} {x : Counting α} {y y' : Numbering α} {f : α → Counting β}
  {g : α → Numbering β}

/-- The computation with a counter that ends does what the one without an end does, as long as the
counter stays in a word. -/
structure Follows (P : Platform) (x : Counting α) (y : Numbering α) : Prop where
  /-- The counter does not fall. -/
  le : ∀ n, n ≤ (y.runFrom n).2
  /-- In a word, both do the same. -/
  runFrom_of_lt : ∀ n, (y.runFrom n).2 < P.size → x.runFrom n = some (y.runFrom n)
  /-- Where the counter leaves the word, a program that stops at its end has no outcome. -/
  eq_none : P.overflow = .stop → ∀ n < P.size, P.size ≤ (y.runFrom n).2 → x.runFrom n = none

/-- A computation that takes no number. -/
theorem follows_of_runFrom {outcome : Except CompileError α}
    (hx : ∀ n, x.runFrom n = some (outcome, n)) (hy : ∀ n, y.runFrom n = (outcome, n)) :
    Follows P x y where
  le n := Nat.le_of_eq (congrArg Prod.snd (hy n)).symm
  runFrom_of_lt n _ := by rw [hx, hy]
  eq_none _ n hn hle := by
    rw [hy] at hle
    exact absurd hn (Nat.not_lt.2 hle)

/-- **One computation after another** does what its two parts do: the counter is in the word after
the first one if it is after both. -/
theorem Follows.bind (hx : Follows P x y) (hf : ∀ a, Follows P (f a) (g a)) :
    Follows P (x >>= f) (y >>= g) where
  le n := by
    have hle := hx.le n
    rw [Numbering.run_bind]
    rcases hy : y.runFrom n with ⟨e | a, k⟩
    all_goals rw [hy] at hle
    · exact hle
    · exact Nat.le_trans hle ((hf a).le k)
  runFrom_of_lt n hlt := by
    have hrun := hx.runFrom_of_lt n
    rw [Numbering.run_bind] at hlt ⊢
    rw [run_bind]
    rcases hy : y.runFrom n with ⟨e | a, k⟩
    all_goals rw [hy] at hlt hrun
    · rw [hrun hlt]
      rfl
    · rw [hrun (Nat.lt_of_le_of_lt ((hf a).le k) hlt)]
      exact (hf a).runFrom_of_lt k hlt
  eq_none hstop n hn hle := by
    have hrun := hx.runFrom_of_lt n
    have hnone := hx.eq_none hstop n hn
    rw [Numbering.run_bind] at hle
    rw [run_bind]
    rcases hy : y.runFrom n with ⟨e | a, k⟩
    all_goals rw [hy] at hle hrun hnone
    · rw [hnone hle]
      rfl
    -- either the first part leaves the word, or it does not and the second part does
    · rcases Nat.lt_or_ge k P.size with hk | hk
      · rw [hrun hk]
        exact (hf a).eq_none hstop k hk hle
      · rw [hnone hk]
        rfl

/-- Taking a number. -/
theorem follows_take : Follows P P.take (Numbering.take 1) where
  le n := Nat.le_add_right n 1
  runFrom_of_lt n (hlt : n + 1 < P.size) := by
    show (P.next? n).map _ = _
    rw [Platform.next?, if_pos hlt]
    rfl
  eq_none hstop n _ (hle : P.size ≤ n + 1) := by
    show (P.next? n).map _ = none
    rw [Platform.next?, if_neg (Nat.not_lt.2 hle), hstop]
    rfl

/-- Where the program stops at the end of a word, the outcome is that of the unending counter, which
has stayed in the word. -/
theorem Follows.eq_of_stop (h : Follows P x y) (hstop : P.overflow = .stop) (hn : n < P.size)
    {r : Except CompileError α × StateId} (hr : x.runFrom n = some r) :
    y.runFrom n = r ∧ r.2 < P.size := by
  rcases Nat.lt_or_ge (y.runFrom n).2 P.size with hlt | hle
  · rw [h.runFrom_of_lt n hlt] at hr
    obtain rfl := Option.some.inj hr
    exact ⟨rfl, hlt⟩
  · rw [h.eq_none hstop n hn hle] at hr
    cases hr

end Counting

namespace Platform

open Counting

/-! ### Literals -/

/-- The part `g` with a position for each further symbol of a literal, numbered from `n` on. -/
def linked (out : Output) (g : PositionGraph) (n : StateId) : List Symbol → PositionGraph
  | [] => g
  | c :: rest => linked out (concat g (link c rest out n) []) (n + 1) rest

/-- The symbols of a literal take their numbers one after the other. -/
theorem follows_numberRest (out : Output) (g : PositionGraph) (word : List Symbol) :
    Follows P (P.numberRest out g word) (do
      let state ← Numbering.take word.length
      return linked out g state word) := by
  induction word generalizing g with
  | nil => exact follows_of_runFrom (fun _ ↦ rfl) fun _ ↦ rfl
  | cons c rest ih =>
    -- numbers that are taken at once are those that are taken one after the other
    have htake : (do
        let state ← Numbering.take (c :: rest).length
        return linked out g state (c :: rest)) = (do
        let state ← Numbering.take 1
        let next ← Numbering.take rest.length
        return linked out (concat g (link c rest out state) []) next rest) := by
      funext n
      show (_, n + (rest.length + 1)) = (_, n + 1 + rest.length)
      rw [Nat.add_right_comm, Nat.add_assoc]
      rfl
    rw [htake]
    exact follows_take.bind fun state ↦ ih _

/-- The further symbols of a literal stand behind the chain that ends with `c`. -/
theorem linked_chain (out : Output) (before : List Position) (n : StateId) (c : Symbol)
    (rest : List Symbol) {x : Symbol × StateId} {front : List (Symbol × StateId)}
    (h : ((c :: rest).zipIdx n).reverse = x :: front) :
    linked out (chain ⟨n, some (.single c), if rest.isEmpty then out else []⟩ before) (n + 1) rest =
      chain ⟨x.2, some (.single x.1), out⟩
        (front.map (fun y ↦ ⟨y.2, some (.single y.1), []⟩) ++ before) := by
  induction rest generalizing before n c x front with
  | nil =>
    cases h
    rfl
  | cons d rest ih =>
    rw [List.zipIdx_cons, List.reverse_cons] at h
    rcases hrev : ((d :: rest).zipIdx (n + 1)).reverse with - | ⟨y, behind⟩
    · simp at hrev
    · rw [hrev, List.cons_append] at h
      obtain ⟨rfl, rfl⟩ := List.cons.inj h
      rw [List.map_append, List.append_assoc]
      exact ih (⟨n, some (.single c), []⟩ :: before) (n + 1) d hrev

/-- A literal that is numbered symbol by symbol is the literal that is numbered as a whole. -/
theorem linked_link (c : Symbol) (rest : List Symbol) (out : Output) (n : StateId) :
    linked out (link c rest out n) (n + 1) rest = ofWord n (c :: rest) out := by
  rcases hrev : ((c :: rest).zipIdx n).reverse with - | ⟨x, front⟩
  · simp at hrev
  · rw [ofWord, hrev]
    exact (linked_chain out [] n c rest hrev).trans (by rw [List.append_nil])

/-! ### Expressions -/

/-- **Numbering with a counter that ends** is numbering, as long as the counter stays in a word. -/
theorem follows_number (P : Platform) (e : Expr) : Follows P (P.number e) (build e) := by
  induction e with
  | union l r ihl ihr =>
    exact ihl.bind fun gl ↦ ihr.bind fun gr ↦ follows_of_runFrom (fun _ ↦ rfl) fun _ ↦ rfl
  | concat l r ihl ihr =>
    exact ihl.bind fun gl ↦ ihr.bind fun gr ↦ follows_of_runFrom (fun _ ↦ rfl) fun _ ↦ rfl
  | star b ih =>
    exact ih.bind fun gb ↦ follows_of_runFrom (fun _ ↦ rfl) fun _ ↦ rfl
  | literal word out =>
    rcases word with - | ⟨c, rest⟩
    · exact follows_take.bind fun state ↦ follows_of_runFrom (fun _ ↦ rfl) fun _ ↦ rfl
    · have hbuild : build (.literal (c :: rest) out) = (do
          let state ← Numbering.take 1
          let next ← Numbering.take rest.length
          return linked out (link c rest out state) next rest) := by
        funext n
        show (_, n + max (rest.length + 1) 1) = (_, n + 1 + rest.length)
        rw [Nat.max_eq_left (Nat.le_add_left 1 rest.length), Nat.add_right_comm, Nat.add_assoc,
          ← linked_link]
      -- the first number is taken alone, the numbers of the rest one after the other
      rw [hbuild]
      exact follows_take.bind fun state ↦ follows_numberRest out _ rest
  | range s out =>
    by_cases hs : s.IsEmpty
    · refine follows_of_runFrom (fun n ↦ ?_) (build_range_of_isEmpty hs out)
      rw [number, dif_pos hs]
      rfl
    · rw [number, build, dif_neg hs, dif_neg hs]
      exact follows_take.bind fun state ↦ follows_of_runFrom (fun _ ↦ rfl) fun _ ↦ rfl
  | emit b out ih =>
    exact ih.bind fun gb ↦ follows_of_runFrom (fun _ ↦ rfl) fun _ ↦ rfl
  | var name => exact follows_of_runFrom (fun _ ↦ rfl) (build_var name)

/-! ### Expressions in turn -/

/-- Expressions are numbered in turn as with an unending counter, as long as it stays in a word. -/
theorem attempts?_of_lt (h : ∀ a ∈ attempts n es, a.stop < P.size) :
    P.attempts? n es = some (attempts n es) := by
  induction es generalizing n with
  | nil => rfl
  | cons e es ih =>
    rw [attempts] at h ⊢
    rcases hrun : (build e).runFrom n with ⟨outcome, stop⟩
    rw [hrun] at h
    obtain ⟨hstop, hrest⟩ := List.forall_mem_cons.1 h
    have hnumber : (P.number e).runFrom n = some (outcome, stop) :=
      hrun ▸ (follows_number P e).runFrom_of_lt n (hrun ▸ hstop)
    rw [attempts?, hnumber]
    show (P.attempts? stop es).bind _ = _
    rw [ih hrest]
    rfl

/-- **A program that stops at the end of a word** numbers expressions in turn only if the unending
counter stays in the word. -/
theorem attempts_eq_of_checked (hn : n < P.size) {l : List Attempt}
    (h : P.checked.attempts? n es = some l) :
    attempts n es = l ∧ ∀ a ∈ l, a.stop < P.size := by
  induction es generalizing n l with
  | nil =>
    obtain rfl := Option.some.inj h
    exact ⟨rfl, fun a ha ↦ absurd ha List.not_mem_nil⟩
  | cons e es ih =>
    obtain ⟨⟨outcome, stop⟩, hnumber, hrest⟩ := Option.bind_eq_some_iff.1 h
    obtain ⟨rest, hattempts, hl⟩ := Option.bind_eq_some_iff.1 hrest
    obtain rfl := Option.some.inj hl
    obtain ⟨hbuild, hlt⟩ := (follows_number P.checked e).eq_of_stop rfl hn hnumber
    obtain ⟨rfl, hall⟩ := ih hlt hattempts
    rw [attempts, hbuild]
    exact ⟨rfl, List.forall_mem_cons.2 ⟨hlt, hall⟩⟩

/-- Expressions in turn leave the counter below what all their occurrences take. -/
theorem stop_le_of_mem_attempts {a : Attempt} (h : a ∈ attempts n es) :
    a.stop ≤ n + (es.map Expr.occurrences).sum := by
  induction es generalizing n with
  | nil => exact absurd h List.not_mem_nil
  | cons e es ih =>
    have htakes := (takesAtMost_build e n).2
    rw [List.map_cons, List.sum_cons]
    rw [attempts] at h
    rcases List.mem_cons.1 h with rfl | h
    · exact Nat.le_trans htakes (Nat.add_le_add_left (Nat.le_add_right _ _) n)
    · exact Nat.le_trans (ih h) (Nat.add_assoc n _ _ ▸ Nat.add_le_add_right htakes _)

/-- **No number is given twice unless the counter overflows.** A program that stops at the end of a
word numbers all expressions if the first number and all occurrences stay below the size of the
word. Where it does number them, the counter does not overflow, and every program does the same: an
expression that has a graph takes the numbers from its start on, from left to right, one for each
occurrence, and the sides of each node of the graph share none; one that has no graph takes no more
than that. The numbers of all graphs are apart. -/
theorem attempts?_separate (P : Platform) (hn : n < P.size) (es : List Expr) :
    (n + (es.map Expr.occurrences).sum < P.size → ∃ l, P.checked.attempts? n es = some l) ∧
    ∀ l, P.checked.attempts? n es = some l → P.attempts? n es = some l ∧
      (∀ a ∈ l,
        (∀ g, a.outcome = .ok g → a.stop = a.start + a.expr.occurrences ∧
          g.stateIds = List.range' a.start a.expr.occurrences ∧ ∀ q ∈ g.nodes, q.Separate) ∧
        (∀ e, a.outcome = .error e →
          a.start ≤ a.stop ∧ a.stop ≤ a.start + a.expr.occurrences)) ∧
      l.Pairwise fun a b ↦ a.stop ≤ b.start ∧
        ∀ g g', a.outcome = .ok g → b.outcome = .ok g' → g.stateIds.Disjoint g'.stateIds := by
  constructor
  · intro hlt
    exact ⟨attempts n es,
      attempts?_of_lt fun a ha ↦ Nat.lt_of_le_of_lt (stop_le_of_mem_attempts ha) hlt⟩
  · intro l hl
    obtain ⟨rfl, hall⟩ := attempts_eq_of_checked hn hl
    obtain ⟨hmem, hpairwise⟩ := attempts_separate n es
    exact ⟨attempts?_of_lt hall, hmem, hpairwise⟩

/-- Expressions the second of which is refused after its left branch has taken a number. -/
def interrupted : List Expr :=
  [.concat (.star (.text "ab" ['x'])) (.range ⟨97, 99⟩ []),
    .union (.text "y" []) (.range ⟨99, 97⟩ []),
    .concat (.empty ['z']) (.text "cd" [])]

/-- The last numbers that can be given. Eight occurrences stay in the word from the ninth number
from its end on. They do from the eighth one on, too, since the second expression is refused after
one of its two occurrences: the counter comes to the greatest number and goes no further. -/
theorem interrupted_at_end :
    (∃ l, (bits64 .wrap).checked.attempts? (2 ^ 64 - 9) interrupted = some l) ∧ ∃ a b c g g',
    (bits64 .wrap).attempts? (2 ^ 64 - 8) interrupted = some [a, b, c] ∧
    a.outcome = .ok g ∧ b.outcome = .error (.invalidRange ⟨99, 97⟩) ∧ c.outcome = .ok g' ∧
    g.stateIds = [2 ^ 64 - 8, 2 ^ 64 - 7, 2 ^ 64 - 6] ∧ (∀ q ∈ g.nodes, q.Separate) ∧
    b.stop = 2 ^ 64 - 4 ∧ b.stop ≤ b.start + b.expr.occurrences ∧
    g'.stateIds = [2 ^ 64 - 4, 2 ^ 64 - 3, 2 ^ 64 - 2] ∧ c.stop = 2 ^ 64 - 1 ∧
    g.stateIds.Disjoint g'.stateIds := by
  have hfits := (attempts?_separate (bits64 .wrap) (by decide : 2 ^ 64 - 9 < 2 ^ 64) interrupted).1
    (by decide)
  obtain ⟨hsame, hmem, hpairwise⟩ :=
    (attempts?_separate (bits64 .wrap) (by decide : 2 ^ 64 - 8 < 2 ^ 64) interrupted).2 _ rfl
  obtain ⟨hhead, -⟩ := List.pairwise_cons.1 hpairwise
  obtain ⟨-, hids, hseparate⟩ := (hmem _ (.head _)).1 _ rfl
  have hrefused := (hmem _ (.tail _ (.head _))).2 _ rfl
  obtain ⟨-, hids', -⟩ := (hmem _ (.tail _ (.tail _ (.head _)))).1 _ rfl
  have hdisjoint := (hhead _ (.tail _ (.head _))).2 _ _ rfl rfl
  exact ⟨hfits, _, _, _, _, _, hsame, rfl, rfl, rfl, hids, hseparate, rfl, hrefused.2, hids', rfl,
    hdisjoint⟩

/-- The counter of a literal of two symbols overflows at the greatest number of a word. A program
that stops there numbers nothing; otherwise the second symbol has the number zero, and the counter
is at one. -/
theorem counter_overflow :
    (bits64 .stop).attempts? (2 ^ 64 - 1) [.text "ab" []] = none ∧
    ∃ g, (bits64 .wrap).attempts? (2 ^ 64 - 1) [.text "ab" []] =
        some [⟨.text "ab" [], 2 ^ 64 - 1, .ok g, 1⟩] ∧
      1 ≠ 2 ^ 64 - 1 + (Expr.text "ab" []).occurrences ∧
      g.stateIds = [2 ^ 64 - 1, 0] ∧
      g.stateIds ≠ List.range' (2 ^ 64 - 1) (Expr.text "ab" []).occurrences := by
  refine ⟨rfl, _, rfl, by decide, ?_, ?_⟩ <;> rw [stateIds_eq_ids]
  · rfl
  · decide

end Platform

end Transduction
