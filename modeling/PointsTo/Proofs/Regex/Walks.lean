import Mathlib.Computability.Language
import Mathlib.Order.CompletePartialOrder

/-!
# Walks in a table of languages

A table gives, for every two states, the words that one step from the one to the other may read.
`Table.walks M i j` is the language of all walks from `i` to `j`, and the least table that holds the
empty walks and can be prolonged by a step in front (`walks_le`). Two facts make state elimination
work. Taking out a state, with the walks through it made direct, changes no walk between other
states (`walks_eliminate`). And when only two states are left, the walks between them have a closed
form (`walks_loop`, `walks_two`).
-/

namespace PointsTo

open scoped Computability

/-- The words that one step may read, for every two states. -/
abbrev Table (α : Type) := Nat → Nat → Language α

namespace Table

variable {α : Type} {M : Table α} {i j k : Nat}

/-- A walk that ends in `last`, with the word that its steps read. -/
inductive Walks (M : Table α) (last : Nat) : Nat → List α → Prop
  | nil : Walks M last last []
  | cons {i k u w} : u ∈ M i k → Walks M last k w → Walks M last i (u ++ w)

/-- The words read along the walks from `i` to `j`. -/
def walks (M : Table α) (i j : Nat) : Language α := {w | M.Walks j i w}

theorem mem_walks {w : List α} : w ∈ M.walks i j ↔ M.Walks j i w := Iff.rfl

/-! ## Walks as a least solution -/

theorem one_le_walks : 1 ≤ M.walks i i := by
  rintro w rfl
  exact .nil

theorem step_mul_walks_le : M i k * M.walks k j ≤ M.walks i j := by
  rintro w ⟨u, hu, v, hv, rfl⟩
  exact .cons hu hv

theorem walks_le {X : Nat → Language α} (here : 1 ≤ X j) (step : ∀ i k, M i k * X k ≤ X i) :
    M.walks i j ≤ X i := by
  intro w hw
  induction hw with
  | nil => exact here rfl
  | @cons i k u w hu _ ih => exact step i k (Language.append_mem_mul hu ih)

theorem step_le_walks : M i j ≤ M.walks i j :=
  calc M i j = M i j * 1 := (mul_one _).symm
    _ ≤ M i j * M.walks j j := mul_le_mul_right one_le_walks _
    _ ≤ M.walks i j := step_mul_walks_le

/-- What is stable under a step at the end is stable under a walk at the end. -/
theorem mul_walks_le {X : Nat → Language α} (step : ∀ i k, X i * M i k ≤ X k) :
    X i * M.walks i j ≤ X j := by
  rintro _ ⟨v, hv, w, hw, rfl⟩
  induction hw generalizing v with
  | nil => simpa using hv
  | @cons i k u w hu _ ih =>
    have front : v ++ u ∈ X k := step i k (Language.append_mem_mul hv hu)
    simpa using ih _ front

theorem walks_mul_walks_le : M.walks i k * M.walks k j ≤ M.walks i j := by
  rintro _ ⟨u, hu, v, hv, rfl⟩
  show M.Walks j i (u ++ v)
  induction hu with
  | nil => exact hv
  | cons hu _ ih =>
    rw [List.append_assoc]
    exact .cons hu ih

theorem walks_mono {N : Table α} (h : ∀ i j, M i j ≤ N.walks i j) : M.walks i j ≤ N.walks i j :=
  walks_le (X := fun i => N.walks i j) one_le_walks fun i k =>
    (mul_le_mul_left (h i k) _).trans walks_mul_walks_le

theorem kstar_le_walks : (M i i)∗ ≤ M.walks i i :=
  kstar_le_of_mul_le_right one_le_walks step_mul_walks_le

/-! ## Taking out a state -/

/-- Walks through `k` become direct, and nothing leads to or from it. -/
def eliminate (M : Table α) (k : Nat) : Table α := fun i j =>
  if i = k ∨ j = k then 0 else M i j + M i k * (M k k)∗ * M k j

theorem eliminate_of_ne (hi : i ≠ k) (hj : j ≠ k) :
    M.eliminate k i j = M i j + M i k * (M k k)∗ * M k j := by
  simp [eliminate, hi, hj]

theorem eliminate_le_walks : M.eliminate k i j ≤ M.walks i j := by
  unfold eliminate
  split
  · exact bot_le
  · refine add_le step_le_walks ?_
    calc M i k * (M k k)∗ * M k j
        ≤ M.walks i k * M.walks k k * M.walks k j := by
          gcongr
          · exact step_le_walks
          · exact kstar_le_walks
          · exact step_le_walks
      _ ≤ M.walks i k * M.walks k j := mul_le_mul_left walks_mul_walks_le _
      _ ≤ M.walks i j := walks_mul_walks_le

/-- What is read from `k` on: some turns around it, a step out of it, and a walk that does not come
back to it. -/
def leaving (M : Table α) (k j : Nat) : Language α :=
  ⨆ l : {l // l ≠ k}, (M k k)∗ * M k l * (M.eliminate k).walks l j

theorem le_leaving {l : Nat} (hl : l ≠ k) :
    (M k k)∗ * M k l * (M.eliminate k).walks l j ≤ M.leaving k j :=
  le_iSup (fun l : {l // l ≠ k} => (M k k)∗ * M k l * (M.eliminate k).walks l j) ⟨l, hl⟩

theorem mul_leaving_le {L X : Language α}
    (h : ∀ l, l ≠ k → L * ((M k k)∗ * M k l * (M.eliminate k).walks l j) ≤ X) :
    L * M.leaving k j ≤ X := by
  rw [leaving, Language.mul_iSup]
  exact iSup_le fun l => h l l.2

/-- Elimination of a state changes no walk between other states. -/
theorem walks_eliminate (hi : i ≠ k) (hj : j ≠ k) :
    (M.eliminate k).walks i j = M.walks i j := by
  refine le_antisymm (walks_mono fun i j => eliminate_le_walks) ?_
  have goal : M.walks i j ≤ if i = k then M.leaving k j else (M.eliminate k).walks i j := by
    refine walks_le (X := fun i => if i = k then M.leaving k j else (M.eliminate k).walks i j)
      ?here fun i i' => ?step
    case here => simp [hj, one_le_walks]
    -- a step either stays away from `k`, enters it, turns around it, or leaves it
    by_cases hi : i = k <;> by_cases hi' : i' = k <;> simp only [hi, hi', ↓reduceIte]
    · refine mul_leaving_le fun l hl => ?_
      calc M k k * ((M k k)∗ * M k l * (M.eliminate k).walks l j)
          = M k k * (M k k)∗ * M k l * (M.eliminate k).walks l j := by simp only [mul_assoc]
        _ ≤ (M k k)∗ * M k l * (M.eliminate k).walks l j := by
          gcongr
          exact mul_kstar_le_kstar
        _ ≤ M.leaving k j := le_leaving hl
    · calc M k i' * (M.eliminate k).walks i' j
          = 1 * M k i' * (M.eliminate k).walks i' j := by rw [one_mul]
        _ ≤ (M k k)∗ * M k i' * (M.eliminate k).walks i' j := by
          gcongr
          exact one_le_kstar
        _ ≤ M.leaving k j := le_leaving hi'
    · refine mul_leaving_le fun l hl => ?_
      calc M i k * ((M k k)∗ * M k l * (M.eliminate k).walks l j)
          = M i k * (M k k)∗ * M k l * (M.eliminate k).walks l j := by simp only [mul_assoc]
        _ ≤ M.eliminate k i l * (M.eliminate k).walks l j := by
          gcongr
          rw [eliminate_of_ne hi hl]
          exact le_add_of_nonneg_left bot_le
        _ ≤ (M.eliminate k).walks i j := step_mul_walks_le
    · calc M i i' * (M.eliminate k).walks i' j
          ≤ M.eliminate k i i' * (M.eliminate k).walks i' j := by
            gcongr
            rw [eliminate_of_ne hi hi']
            exact le_add_of_nonneg_right bot_le
        _ ≤ (M.eliminate k).walks i j := step_mul_walks_le
  simpa [hi] using goal

/-! ## What is left in the end -/

/-- No step leads from or to the state. -/
def Isolated (M : Table α) (k : Nat) : Prop := ∀ i, M i k = 0 ∧ M k i = 0

theorem isolated_eliminate : (M.eliminate k).Isolated k := fun i => by simp [eliminate]

theorem Isolated.eliminate (h : M.Isolated j) (k : Nat) : (M.eliminate k).Isolated j := fun i => by
  simp [Table.eliminate, (h i).1, (h i).2, (h k).1, (h k).2]

/-- The walks from a state to itself, when it is the only one. -/
theorem walks_loop (h : ∀ k, k ≠ i → M.Isolated k) : M.walks i i = (M i i)∗ := by
  refine le_antisymm ?_ kstar_le_walks
  set X : Nat → Language α := fun k => if k = i then (M i i)∗ else 0
  have stay : X i = (M i i)∗ := if_pos rfl
  have step : ∀ k l, X k * M k l ≤ X l := by
    intro k l
    by_cases hk : k = i
    · subst hk
      by_cases hl : l = k
      · subst hl
        rw [stay]
        exact kstar_mul_le_kstar
      · rw [(h l hl k).1, mul_zero]
        exact bot_le
    · rw [(h k hk l).2, mul_zero]
      exact bot_le
  calc M.walks i i = 1 * M.walks i i := (one_mul _).symm
    _ ≤ X i * M.walks i i := by
      rw [stay]
      exact mul_le_mul_left one_le_kstar _
    _ ≤ X i := mul_walks_le step
    _ = (M i i)∗ := stay

/-- The walks from a state to another, when there are only these two: some turns at the first, with
or without a visit of the second, then the step over, and some turns at the second. -/
theorem walks_two (hij : i ≠ j) (h : ∀ k, k ≠ i → k ≠ j → M.Isolated k) :
    M.walks i j = (M i i + M i j * (M j j)∗ * M j i)∗ * M i j * (M j j)∗ := by
  -- without the second state, the turns at the first are all there is
  have turns : M.walks i i = (M i i + M i j * (M j j)∗ * M j i)∗ := by
    rw [← walks_eliminate hij hij, walks_loop, eliminate_of_ne hij hij]
    intro k hk
    by_cases hkj : k = j
    · exact hkj ▸ isolated_eliminate
    · exact (h k hk hkj).eliminate j
  rw [← turns]
  refine le_antisymm ?_ ?_
  · set X : Nat → Language α := fun k =>
      if k = i then M.walks i i else if k = j then M.walks i i * M i j * (M j j)∗ else 0
    have first : X i = M.walks i i := if_pos rfl
    have second : X j = M.walks i i * M i j * (M j j)∗ := (if_neg hij.symm).trans (if_pos rfl)
    have step : ∀ k l, X k * M k l ≤ X l := by
      intro k l
      by_cases hk : k = i ∨ k = j
      swap
      · rw [not_or] at hk
        rw [(h k hk.1 hk.2 l).2, mul_zero]
        exact bot_le
      by_cases hl : l = i ∨ l = j
      swap
      · rw [not_or] at hl
        rw [(h l hl.1 hl.2 k).1, mul_zero]
        exact bot_le
      rcases hk with hk | hk <;> rcases hl with hl | hl <;> rw [hk, hl]
      · rw [first]
        exact (mul_le_mul_right step_le_walks _).trans walks_mul_walks_le
      · rw [first, second]
        calc M.walks i i * M i j = M.walks i i * M i j * 1 := (mul_one _).symm
          _ ≤ M.walks i i * M i j * (M j j)∗ := mul_le_mul_right one_le_kstar _
      · rw [first, second]
        calc M.walks i i * M i j * (M j j)∗ * M j i
            = M.walks i i * (M i j * (M j j)∗ * M j i) := by simp only [mul_assoc]
          _ ≤ M.walks i i * (M i i + M i j * (M j j)∗ * M j i) :=
            mul_le_mul_right (le_add_of_nonneg_left bot_le) _
          _ ≤ M.walks i i := by
            rw [turns]
            exact kstar_mul_le_kstar
      · rw [second, mul_assoc _ _ (M j j)]
        exact mul_le_mul_right kstar_mul_le_kstar _
    calc M.walks i j = 1 * M.walks i j := (one_mul _).symm
      _ ≤ X i * M.walks i j := by
        rw [first]
        exact mul_le_mul_left one_le_walks _
      _ ≤ X j := mul_walks_le step
      _ = M.walks i i * M i j * (M j j)∗ := second
  · calc M.walks i i * M i j * (M j j)∗ ≤ M.walks i i * M.walks i j * M.walks j j := by
          gcongr
          · exact step_le_walks
          · exact kstar_le_walks
      _ ≤ M.walks i j * M.walks j j := mul_le_mul_left walks_mul_walks_le _
      _ ≤ M.walks i j := walks_mul_walks_le

end Table

end PointsTo
