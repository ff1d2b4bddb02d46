import Mathlib.Data.List.Lex
import Mathlib.Algebra.Ring.Nat
import Mathlib.Tactic.Linarith
import Mathlib.Tactic.SplitIfs

/-!
# Decimal fractions as texts

Numbers written with a fixed number of digits compare as their texts do, character by character.
A fraction written with a fixed number of digits against one whose trailing zeros are cut off does
not: after the digits both have in common, the shorter text goes on with its terminator.

* `digits w n` : the `w` last decimal digits of `n`.
* `trimmed w n` : the same, up to the last digit that is not zero.
* `digits_lt_digits` : texts of one width compare as the numbers.
* `digits_lt_trimmed_iff` : when a text of fixed width and a trimmed one compare as the fractions,
  both ended by a character above all digits: not when they are `Cut`, one of them a proper
  beginning of the other.
* `trimmed_lt_trimmed_iff` : the same for two trimmed texts, and `Clipped`.
-/

namespace EventStore

namespace Decimal

/-- The digits of `n < 10 ^ w`, with leading zeros. -/
def digits : ℕ → ℕ → List Char
  | 0, _ => []
  | w + 1, n => Nat.digitChar (n / 10 ^ w) :: digits w (n % 10 ^ w)

/-- The digits of `n < 10 ^ w` with leading zeros and without trailing ones. -/
def trimmed : ℕ → ℕ → List Char
  | 0, _ => []
  | w + 1, n => if n = 0 then [] else Nat.digitChar (n / 10 ^ w) :: trimmed w (n % 10 ^ w)

/-- The `a` digits of `m` and the trimmed `b` digits of `n` agree up to the end of one of them and
not of the other. -/
def Cut : ℕ → ℕ → ℕ → ℕ → Prop
  | 0, _, _, n => n ≠ 0
  | a + 1, b, m, n =>
    n = 0 ∨ m / 10 ^ a = n / 10 ^ (b - 1) ∧ Cut a (b - 1) (m % 10 ^ a) (n % 10 ^ (b - 1))

/-- One of the trimmed texts is a proper beginning of the other. -/
def Clipped (w m n : ℕ) : Prop :=
  m ≠ n ∧ (trimmed w m <+: trimmed w n ∨ trimmed w n <+: trimmed w m)

instance (w m n : ℕ) : Decidable (Clipped w m n) := instDecidableAnd

@[simp]
theorem trimmed_zero (w : ℕ) : trimmed w 0 = [] := by cases w <;> rfl

theorem clipped_zero_left {w n : ℕ} : Clipped w 0 n ↔ 0 ≠ n := by simp [Clipped]

theorem clipped_zero_right {w n : ℕ} : Clipped w n 0 ↔ n ≠ 0 := by simp [Clipped]

@[simp]
theorem length_digits (w n : ℕ) : (digits w n).length = w := by
  induction w generalizing n with
  | zero => rfl
  | succ w ih => simp [digits, ih]

/-- The characters of the digits are ordered as the digits. -/
theorem digitChar_lt : ∀ d < 10, ∀ e < 10, (Nat.digitChar d < Nat.digitChar e ↔ d < e) := by decide

theorem digitChar_inj : ∀ d < 10, ∀ e < 10, (Nat.digitChar d = Nat.digitChar e ↔ d = e) := by
  decide

/-- The first of `w + 1` digits is one. -/
theorem div_pow_lt {w n : ℕ} (hn : n < 10 ^ (w + 1)) : n / 10 ^ w < 10 := by
  rw [Nat.div_lt_iff_lt_mul (by positivity)]
  rwa [pow_succ, mul_comm] at hn

theorem mod_pow_lt (w n : ℕ) : n % 10 ^ w < 10 ^ w := Nat.mod_lt _ (by positivity)

/-- Numbers compare by their first digits, and by the rest where these are equal. -/
theorem lt_iff_div_mod (q m n : ℕ) (hq : 0 < q) :
    m < n ↔ m / q < n / q ∨ m / q = n / q ∧ m % q < n % q := by
  have hm := Nat.div_add_mod m q
  have hn := Nat.div_add_mod n q
  have hmq := Nat.mod_lt m hq
  have hnq := Nat.mod_lt n hq
  constructor
  · intro h
    have hle : m / q ≤ n / q := Nat.div_le_div_right (by omega)
    by_cases he : m / q = n / q
    · rw [he] at hm
      exact Or.inr ⟨he, by omega⟩
    · exact Or.inl (by omega)
  · rintro (h | ⟨he, h⟩)
    · have : q * (m / q + 1) ≤ q * (n / q) := Nat.mul_le_mul_left q h
      rw [Nat.mul_add, Nat.mul_one] at this
      omega
    · rw [he] at hm
      omega

/-- Texts of one width compare as the numbers. -/
theorem digits_lt_digits {w m n : ℕ} (hm : m < 10 ^ w) (hn : n < 10 ^ w) :
    digits w m < digits w n ↔ m < n := by
  induction w generalizing m n with
  | zero =>
    obtain rfl : m = 0 := by simpa using hm
    obtain rfl : n = 0 := by simpa using hn
    simp [digits]
  | succ w ih =>
    rw [lt_iff_div_mod (10 ^ w) m n (by positivity), digits, digits, List.cons_lt_cons_iff,
      digitChar_lt _ (div_pow_lt hm) _ (div_pow_lt hn),
      digitChar_inj _ (div_pow_lt hm) _ (div_pow_lt hn), ih (mod_pow_lt w m) (mod_pow_lt w n)]

/-- The fraction `m / 10 ^ (a + 1)` against `n / 10 ^ (b + 1)`, by the first digit and the rest. -/
theorem shift_lt_iff {a b m n : ℕ} (hab : a ≤ b) :
    m * 10 ^ (b - a) < n ↔ m / 10 ^ a < n / 10 ^ b ∨
      m / 10 ^ a = n / 10 ^ b ∧ (m % 10 ^ a) * 10 ^ (b - a) < n % 10 ^ b := by
  obtain ⟨c, rfl⟩ := Nat.exists_eq_add_of_le hab
  have hpow : 10 ^ (a + c) = 10 ^ a * 10 ^ c := pow_add 10 a c
  have hdiv : m * 10 ^ c / 10 ^ (a + c) = m / 10 ^ a := by
    rw [hpow]
    exact Nat.mul_div_mul_right m (10 ^ a) (by positivity)
  have hmod : m * 10 ^ c % 10 ^ (a + c) = m % 10 ^ a * 10 ^ c := by
    rw [hpow]
    exact Nat.mul_mod_mul_right (10 ^ c) m (10 ^ a)
  rw [Nat.add_sub_cancel_left, lt_iff_div_mod (10 ^ (a + c)) (m * 10 ^ c) n (by positivity), hdiv,
    hmod]

variable {z : Char}

/-- A character below the terminator is not above it, and not the terminator itself. -/
theorem not_lt_and_ne {d : Char} (h : d < z) : ¬ z < d ∧ z ≠ d :=
  ⟨Char.lt_asymm h, fun he => Char.lt_irrefl z (he ▸ h)⟩

/-- A text of fixed width and a trimmed one, ended by the same character above all digits, compare
as the fractions unless one is a proper beginning of the other. -/
theorem digits_lt_trimmed_iff (hz : ∀ d < 10, Nat.digitChar d < z) {a b m n : ℕ} (hab : a ≤ b)
    (hm : m < 10 ^ a) (hn : n < 10 ^ b) :
    (digits a m ++ [z] < trimmed b n ++ [z] ↔ m * 10 ^ (b - a) < n) ↔ ¬ Cut a b m n := by
  induction a generalizing b m n with
  | zero =>
    obtain rfl : m = 0 := by simpa using hm
    cases b with
    | zero =>
      obtain rfl : n = 0 := by simpa using hn
      simp [digits, trimmed, Cut]
    | succ b =>
      by_cases h : n = 0
      · simp [digits, trimmed, Cut, h]
      · -- the terminator meets a digit: the earlier fraction has the later text
        obtain ⟨hnot, hne⟩ := not_lt_and_ne (hz _ (div_pow_lt hn))
        simp [digits, trimmed, Cut, h, List.cons_lt_cons_iff, hnot, hne, Nat.pos_of_ne_zero h]
  | succ a ih =>
    obtain ⟨b, rfl⟩ : ∃ b', b = b' + 1 := ⟨b - 1, by omega⟩
    by_cases h : n = 0
    · -- a digit meets the terminator: the later fraction has the earlier text
      have hlt : Nat.digitChar (m / 10 ^ a) < z := hz _ (div_pow_lt hm)
      simp [digits, trimmed, Cut, h, List.cons_lt_cons_iff, hlt]
    · have hrest := ih (show a ≤ b by omega) (mod_pow_lt a m) (mod_pow_lt b n)
      rw [digits, trimmed, if_neg h, List.cons_append, List.cons_append, List.cons_lt_cons_iff,
        digitChar_lt _ (div_pow_lt hm) _ (div_pow_lt hn),
        digitChar_inj _ (div_pow_lt hm) _ (div_pow_lt hn), Nat.add_sub_add_right,
        shift_lt_iff (show a ≤ b by omega), Cut, Nat.add_sub_cancel]
      by_cases he : m / 10 ^ a = n / 10 ^ b
      · simpa [he, h] using hrest
      · simp [he, h]

/-- Two trimmed texts, ended by the same character above all digits, compare as the fractions unless
one is a proper beginning of the other. -/
theorem trimmed_lt_trimmed_iff (hz : ∀ d < 10, Nat.digitChar d < z) {w m n : ℕ} (hm : m < 10 ^ w)
    (hn : n < 10 ^ w) :
    (trimmed w m ++ [z] < trimmed w n ++ [z] ↔ m < n) ↔ ¬ Clipped w m n := by
  induction w generalizing m n with
  | zero =>
    obtain rfl : m = 0 := by simpa using hm
    obtain rfl : n = 0 := by simpa using hn
    simp [trimmed, Clipped]
  | succ w ih =>
    by_cases hm0 : m = 0
    · by_cases hn0 : n = 0
      · simp [hm0, hn0, clipped_zero_left]
      · obtain ⟨hnot, hne⟩ := not_lt_and_ne (hz _ (div_pow_lt hn))
        simp [trimmed, hm0, hn0, clipped_zero_left, Ne.symm hn0, List.cons_lt_cons_iff, hnot, hne,
          Nat.pos_of_ne_zero hn0]
    · by_cases hn0 : n = 0
      · have hlt := hz _ (div_pow_lt hm)
        simp [trimmed, hm0, hn0, clipped_zero_right, List.cons_lt_cons_iff, hlt]
      · have hrest := ih (mod_pow_lt w m) (mod_pow_lt w n)
        have hm10 := div_pow_lt hm
        have hn10 := div_pow_lt hn
        rw [trimmed, trimmed, if_neg hm0, if_neg hn0, List.cons_append, List.cons_append,
          List.cons_lt_cons_iff, digitChar_lt _ hm10 _ hn10, digitChar_inj _ hm10 _ hn10,
          lt_iff_div_mod (10 ^ w) m n (by positivity)]
        by_cases he : m / 10 ^ w = n / 10 ^ w
        · have hne : m ≠ n ↔ m % 10 ^ w ≠ n % 10 ^ w := by
            refine not_congr ⟨fun h => by rw [h], fun h => ?_⟩
            rw [← Nat.div_add_mod m (10 ^ w), ← Nat.div_add_mod n (10 ^ w), he, h]
          rw [Clipped, ← hne] at hrest
          simpa [Clipped, trimmed, he, hm0, hn0] using hrest
        · have hchar : Nat.digitChar (m / 10 ^ w) ≠ Nat.digitChar (n / 10 ^ w) :=
            fun h => he ((digitChar_inj _ hm10 _ hn10).1 h)
          simp [Clipped, trimmed, he, hm0, hn0, hchar, hchar.symm]

/-- Texts that begin with texts of one length compare as these, where they differ. -/
theorem append_lt_append {x y : List Char} (hlen : x.length = y.length) (hlt : x < y)
    (u v : List Char) : x ++ u < y ++ v := by
  induction x generalizing y with
  | nil =>
    obtain rfl : y = [] := List.eq_nil_of_length_eq_zero hlen.symm
    exact absurd hlt (List.not_lt_nil _)
  | cons c x ih =>
    obtain ⟨d, y, rfl⟩ := List.exists_cons_of_length_eq_add_one hlen.symm
    rw [List.cons_lt_cons_iff] at hlt
    rw [List.cons_append, List.cons_append, List.cons_lt_cons_iff]
    rcases hlt with h | ⟨he, h⟩
    · exact Or.inl h
    · exact Or.inr ⟨he, ih (by simpa using hlen) h⟩

/-- Texts with the same beginning compare as the rest. -/
theorem append_lt_append_left_iff (x u v : List Char) : x ++ u < x ++ v ↔ u < v := by
  induction x with
  | nil => rfl
  | cons c x ih => rw [List.cons_append, List.cons_append, List.cons_lt_cons_iff]; simp [ih]

end Decimal

end EventStore
