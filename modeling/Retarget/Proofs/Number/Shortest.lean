/-
# Decimals that survive rounding

A decimal `m · 10^e` is rounded to the nearest floating-point number, and the shortest
decimal that reads back as that number is looked for.  The basin of the number is narrow:
less than `10^e` wide if `m` has at most 15 digits.  The decimal lies in it, so it is the
only multiple of `10^e` there, and if `m` does not end in `0` no multiple of a greater
power of ten lies there.  The search therefore comes back to `m · 10^e`
(`shortest_rounded`).

Reals are rationals here, counted in units of `2^-1074`; a basin counts quarters of them.
-/

import Mathlib.Algebra.Order.Field.Power
import Mathlib.Data.Rat.Cast.Order
import Mathlib.Tactic.FieldSimp
import Mathlib.Tactic.Linarith
import Mathlib.Tactic.Positivity
import Mathlib.Tactic.Ring
import Retarget.Number.Shortest

namespace Retarget
namespace Binary64

/-! ### Basins -/

namespace Basin

variable {b : Basin} {x y z : ℚ}

/-- The rational number of quarters lies in the basin. -/
def Contains (b : Basin) (x : ℚ) : Prop :=
  if b.closed then b.low ≤ x ∧ x ≤ b.high else b.low < x ∧ x < b.high

theorem Contains.le (h : b.Contains x) : b.low ≤ x ∧ x ≤ b.high := by
  rw [Contains] at h
  split at h
  · exact h
  · exact ⟨h.1.le, h.2.le⟩

/-- What lies between two points of a basin lies in it. -/
theorem Contains.between (hx : b.Contains x) (hz : b.Contains z) (hxy : x ≤ y) (hyz : y ≤ z) :
    b.Contains y := by
  rw [Contains] at *
  split
  · rename_i hc
    rw [if_pos hc] at hx hz
    exact ⟨hx.1.trans hxy, hyz.trans hz.2⟩
  · rename_i hc
    rw [if_neg hc] at hx hz
    exact ⟨hx.1.trans_le hxy, hyz.trans_lt hz.2⟩

theorem has_iff {n d : ℕ} (hd : 0 < d) : b.has n d = true ↔ b.Contains (n / d : ℚ) := by
  have hd' : (0 : ℚ) < d := Nat.cast_pos.2 hd
  rw [has, Contains]
  split
  · simp only [Bool.and_eq_true, decide_eq_true_eq, le_div_iff₀ hd', div_le_iff₀ hd']
    norm_cast
  · simp only [Bool.and_eq_true, decide_eq_true_eq, lt_div_iff₀ hd', div_lt_iff₀ hd']
    norm_cast

end Basin

/-- The decimal in quarters of a unit. -/
def quarters (m : ℕ) (e : ℤ) : ℚ := m * 10 ^ e * (4 * one)

theorem pow_two_pos (n : ℕ) : 0 < Nat.pow 2 n := Nat.two_pow_pos n

theorem one_pos : 0 < one := by decide +kernel

/-- All that counts of the unit is that it is positive. -/
theorem exists_quarters_eq : ∃ u : ℚ, 0 < u ∧ u = 4 * one ∧ ∀ m e, quarters m e = m * 10 ^ e * u :=
  ⟨_, mul_pos (by norm_num) (Nat.cast_pos.2 one_pos), rfl, fun _ _ => rfl⟩

/-- Multiples of a greater power of ten are multiples of a smaller one. -/
theorem quarters_add (j k : ℕ) (e : ℤ) : quarters j (e + k) = quarters (j * 10 ^ k) e := by
  obtain ⟨u, -, -, hq⟩ := exists_quarters_eq
  rw [hq, hq, zpow_add₀ (by norm_num : (10 : ℚ) ≠ 0), zpow_natCast]
  push_cast
  ring

theorem quarters_mono {j m : ℕ} (h : j ≤ m) (e : ℤ) : quarters j e ≤ quarters m e := by
  obtain ⟨u, hu, -, hq⟩ := exists_quarters_eq
  rw [hq, hq]
  gcongr

/-- Different multiples of a power of ten are at least that far apart. -/
theorem quarters_one_le_sub {j m : ℕ} (h : j < m) (e : ℤ) :
    quarters 1 e ≤ quarters m e - quarters j e := by
  obtain ⟨u, hu, -, hq⟩ := exists_quarters_eq
  have hj : (1 : ℚ) ≤ m - j := by
    rw [le_sub_iff_add_le]
    exact_mod_cast (Nat.add_comm 1 j ▸ h : 1 + j ≤ m)
  calc quarters 1 e = 1 * (10 ^ e * u) := by rw [hq]; push_cast; ring
    _ ≤ (m - j) * (10 ^ e * u) := by gcongr
    _ = quarters m e - quarters j e := by rw [hq, hq]; ring

namespace Basin

variable {b : Basin} {tie : Tie} {m : ℕ} {e : ℤ}

theorem quarters_eq_div (m : ℕ) (e : ℤ) : quarters m e =
    ((m * (4 * one * Nat.pow 10 e.toNat) : ℕ) : ℚ) / ((Nat.pow 10 (-e).toNat : ℕ) : ℚ) := by
  have hp : (10 : ℚ) ^ e = (10 : ℚ) ^ e.toNat / (10 : ℚ) ^ (-e).toNat := by
    rw [← zpow_natCast, ← zpow_natCast, ← zpow_sub₀ (by norm_num)]
    congr 1
    omega
  obtain ⟨u, -, hu, hq⟩ := exists_quarters_eq
  rw [hq, hp, hu, Nat.pow_eq, Nat.pow_eq, Nat.cast_mul, Nat.cast_mul, Nat.cast_mul, Nat.cast_pow,
    Nat.cast_pow, Nat.cast_ofNat, Nat.cast_ofNat]
  generalize (one : ℚ) = w
  ring

theorem has_multiple_iff (m : ℕ) (e : ℤ) :
    b.has (m * (4 * one * Nat.pow 10 e.toNat)) (Nat.pow 10 (-e).toNat) = true ↔
      b.Contains (quarters m e) := by
  have hd : 0 < Nat.pow 10 (-e).toNat := Nat.pow_pos (by decide)
  rw [has_iff hd, quarters_eq_div]

/-- Without a multiple in the basin none is found. -/
theorem multiple?_eq_none (h : ∀ j, ¬ b.Contains (quarters j e)) : b.multiple? tie e = none := by
  have hf (j : ℕ) : b.has (j * (4 * one * Nat.pow 10 e.toNat)) (Nat.pow 10 (-e).toNat) = false := by
    rw [← Bool.not_eq_true, has_multiple_iff]
    exact h j
  rw [multiple?.eq_def]
  dsimp only
  rw [hf, hf]

/-- **The only multiple in the basin is found**, since it is next to the middle. -/
theorem multiple?_eq_some (hmid : b.Contains b.middle) (hm : b.Contains (quarters m e))
    (hu : ∀ j, b.Contains (quarters j e) → j = m) : b.multiple? tie e = some m := by
  rw [multiple?.eq_def]
  dsimp only
  generalize hn : 4 * one * Nat.pow 10 e.toNat = n
  generalize hd : Nat.pow 10 (-e).toNat = d
  generalize hbelow : b.middle * d / n = below
  have hdpos : 0 < d := hd ▸ Nat.pow_pos (by decide)
  have hnpos : 0 < n := hn ▸ Nat.mul_pos (Nat.mul_pos (by decide) one_pos) (Nat.pow_pos (by decide))
  have hq (j : ℕ) : quarters j e = ((j * n : ℕ) : ℚ) / (d : ℚ) := by rw [quarters_eq_div, hn, hd]
  have hhas (j : ℕ) : b.has (j * n) d = true ↔ b.Contains (quarters j e) := by
    rw [← hn, ← hd]
    exact has_multiple_iff j e
  have hd' : (0 : ℚ) < d := Nat.cast_pos.2 hdpos
  have hlow : quarters below e ≤ b.middle := by
    rw [hq, div_le_iff₀ hd']
    exact_mod_cast hbelow ▸ Nat.div_mul_le_self _ _
  have hhigh : (b.middle : ℚ) ≤ quarters (below + 1) e := by
    rw [hq, le_div_iff₀ hd']
    have := Nat.lt_div_mul_add (a := b.middle * d) hnpos
    rw [hbelow] at this
    exact_mod_cast (by rw [Nat.succ_mul]; exact this.le : b.middle * d ≤ (below + 1) * n)
  rcases Nat.lt_or_ge below m with hlt | hge
  · obtain rfl : below + 1 = m :=
      hu _ (hmid.between hm hhigh (quarters_mono hlt e))
    have h0 : b.has (below * n) d = false := by
      rw [← Bool.not_eq_true, hhas]
      exact fun h => absurd (hu _ h) (Nat.ne_of_lt hlt)
    rw [h0, (hhas _).2 hm]
  · obtain rfl : below = m := hu _ (hm.between hmid (quarters_mono hge e) hlow)
    have h1 : b.has ((below + 1) * n) d = false := by
      rw [← Bool.not_eq_true, hhas]
      exact fun h => absurd (hu _ h) (Nat.succ_ne_self _)
    rw [h1, (hhas _).2 hm]

/-- The search goes down to the first exponent of which there is a multiple. -/
theorem search_eq {steps k : ℕ} {top : ℤ} (hk : k < steps)
    (hnone : ∀ i < k, b.multiple? tie (top - i) = none)
    (hsome : b.multiple? tie (top - k) = some m) : b.search tie steps top = ⟨m, top - k⟩ := by
  induction k generalizing steps top with
  | zero =>
    obtain ⟨steps, rfl⟩ := Nat.exists_eq_add_one_of_ne_zero (Nat.ne_zero_of_lt hk)
    rw [Int.ofNat_zero, Int.sub_zero] at hsome ⊢
    rw [search, hsome]
  | succ k ih =>
    obtain ⟨steps, rfl⟩ := Nat.exists_eq_add_one_of_ne_zero (Nat.ne_zero_of_lt hk)
    have h0 := hnone 0 (Nat.succ_pos k)
    rw [Int.ofNat_zero, Int.sub_zero] at h0
    have hshift (i : ℕ) : top - 1 - i = top - (i + 1 : ℕ) := by omega
    rw [search, h0]
    dsimp only
    rw [ih (Nat.lt_of_succ_lt_succ hk) (fun i hi => ?_) (by rw [hshift]; exact hsome), hshift]
    rw [hshift]
    exact hnone (i + 1) (Nat.succ_lt_succ hi)

/-- **In a narrow basin a decimal without a needless `0` is the shortest.** -/
theorem search_of_narrow {top : ℤ} (hmid : b.Contains b.middle) (hm : b.Contains (quarters m e))
    (hten : m % 10 ≠ 0) (hnarrow : (b.high : ℚ) - b.low < quarters 1 e) (hle : e ≤ top)
    (hlt : top < e + 40) : b.search tie 40 top = ⟨m, e⟩ := by
  have hu (j : ℕ) (hj : b.Contains (quarters j e)) : j = m := by
    have h1 := hj.le
    have h2 := hm.le
    rcases lt_trichotomy j m with h | h | h
    · have := quarters_one_le_sub h e
      linarith
    · exact h
    · have := quarters_one_le_sub h e
      linarith
  obtain ⟨k, hk⟩ := Int.eq_ofNat_of_zero_le (Int.sub_nonneg.2 hle)
  obtain rfl : top - k = e := by omega
  refine search_eq (by omega) (fun i hi => multiple?_eq_none fun j hj => hten ?_)
    (multiple?_eq_some hmid hm hu)
  -- a multiple of a greater power of ten is the decimal itself, which would end in `0`
  have he : top - (i : ℤ) = top - k + (k - i : ℕ) := by omega
  rw [he, quarters_add] at hj
  rw [← hu _ hj, Nat.mul_mod, Nat.pow_mod]
  simp [Nat.sub_ne_zero_of_lt hi]

end Basin

/-! ### Rounding -/

/-- Rounding goes to the next natural number at most, and half way to an even one. -/
theorem nearest_spec {n d : ℕ} (hd : 0 < d) :
    2 * n ≤ 2 * (nearest n d * d) + d ∧ 2 * (nearest n d * d) ≤ 2 * n + d ∧
      (2 * n = 2 * (nearest n d * d) + d ∨ 2 * (nearest n d * d) = 2 * n + d →
        nearest n d % 2 = 0) := by
  have hn := Nat.div_add_mod n d
  have hr := Nat.mod_lt n hd
  rw [Nat.mul_comm] at hn
  rw [nearest]
  split
  · rename_i h
    simp only [Bool.or_eq_true, Bool.and_eq_true, decide_eq_true_eq, beq_iff_eq] at h
    refine ⟨by omega, by omega, fun he => ?_⟩
    omega
  · rename_i h
    simp only [Bool.or_eq_true, Bool.and_eq_true, decide_eq_true_eq, beq_iff_eq, not_or, not_and] at h
    rw [Nat.succ_mul (n / d) d]
    refine ⟨by omega, by omega, fun he => ?_⟩
    omega

theorem rounded_zero (d : ℕ) : rounded 0 d = 0 := by
  simp [rounded, nearest]

/-- The distance of a magnitude from the next one. -/
def step (units : ℕ) : ℕ := Nat.pow 2 (spare units)

theorem step_pos (units : ℕ) : 0 < step units := pow_two_pos _

/-- A number with too many binary digits has 53 of them in front. -/
theorem pow_mul_step_le {q : ℕ} (h : 0 < spare q) : 2 ^ 52 * step q ≤ q := by
  have hq : q ≠ 0 := by
    rintro rfl
    exact absurd h (by decide)
  calc 2 ^ 52 * step q = 2 ^ (52 + spare q) := (Nat.pow_add 2 52 (spare q)).symm
    _ = 2 ^ q.log2 := by rw [spare] at *; congr 1; omega
    _ ≤ q := Nat.log2_self_le hq

theorem lt_pow_mul_step (q : ℕ) : q < 2 ^ 53 * step q :=
  calc q < 2 ^ (q.log2 + 1) := Nat.lt_log2_self
    _ ≤ 2 ^ (53 + spare q) := Nat.pow_le_pow_right Nat.two_pos (by rw [spare]; omega)
    _ = 2 ^ 53 * step q := Nat.pow_add 2 53 (spare q)

theorem step_le {units : ℕ} (h : 0 < units) : step units ≤ units := by
  rcases Nat.eq_zero_or_pos (spare units) with h0 | h0
  · rw [step, h0]
    exact h
  · exact Nat.le_trans (Nat.le_mul_of_pos_left _ (Nat.two_pow_pos 52)) (pow_mul_step_le h0)

/-- The binary digits that are kept in rounding: 53 of them, or the next power of two. -/
theorem nearest_bounds {n d : ℕ} (hd : 0 < d) :
    nearest n (d * step (n / d)) ≤ 2 ^ 53 ∧
      (0 < spare (n / d) → 2 ^ 52 ≤ nearest n (d * step (n / d)) ∧ 2 ^ 52 * (d * step (n / d)) ≤ n) := by
  generalize hD : d * step (n / d) = D
  have hpos : 0 < D := hD ▸ Nat.mul_pos hd (step_pos _)
  obtain ⟨h1, h2, -⟩ := nearest_spec (n := n) hpos
  constructor
  · have hlt : n < 2 ^ 53 * D :=
      calc n < d * (n / d + 1) := Nat.lt_mul_div_succ n hd
        _ ≤ d * (2 ^ 53 * step (n / d)) := Nat.mul_le_mul_left d (lt_pow_mul_step _)
        _ = 2 ^ 53 * D := by rw [← hD]; ring
    by_contra ha
    have : (2 ^ 53 + 1) * D ≤ nearest n D * D := Nat.mul_le_mul_right D (Nat.not_le.1 ha)
    omega
  · intro h
    have hle : 2 ^ 52 * D ≤ n :=
      calc 2 ^ 52 * D = d * (2 ^ 52 * step (n / d)) := by rw [← hD]; ring
        _ ≤ d * (n / d) := Nat.mul_le_mul_left d (pow_mul_step_le h)
        _ ≤ n := Nat.mul_div_le n d
    refine ⟨?_, hle⟩
    by_contra ha
    have : (nearest n D + 1) * D ≤ 2 ^ 52 * D := Nat.mul_le_mul_right D (Nat.not_le.1 ha)
    rw [Nat.succ_mul] at this
    omega

/-- Multiples of a step with 53 binary digits in front are that step apart. -/
theorem log2_mul_step {a q : ℕ} (h : a < 2 ^ 53) (hge : 2 ^ 52 ≤ a) :
    (a * step q).log2 = 52 + spare q := by
  have hp : 0 < 2 ^ spare q := Nat.two_pow_pos _
  have hne : a * step q ≠ 0 := by
    have := step_pos q
    positivity
  rw [Nat.log2_eq_iff hne, Nat.pow_add, show 52 + spare q + 1 = 53 + spare q by omega, Nat.pow_add]
  exact ⟨Nat.mul_le_mul_right _ hge, Nat.mul_lt_mul_of_pos_right h hp⟩

theorem spare_mul_step {a q : ℕ} (h : a < 2 ^ 53) (hk : 0 < spare q → 2 ^ 52 ≤ a) :
    spare (a * step q) = spare q := by
  rcases Nat.eq_zero_or_pos (spare q) with h0 | hpos
  · have hs : step q = 1 := by rw [step, h0]
    rw [hs, mul_one, h0]
    rcases Nat.eq_zero_or_pos a with rfl | ha
    · rfl
    · have := (Nat.log2_lt (k := 53) (Nat.pos_iff_ne_zero.1 ha)).2 h
      rw [spare]
      omega
  · rw [spare, log2_mul_step h (hk hpos), Nat.add_sub_cancel_left]

theorem step_pow_mul_step (q : ℕ) : step (2 ^ 53 * step q) = 2 * step q := by
  have hl : (2 ^ 53 * step q).log2 = 53 + spare q := by
    have he : 2 ^ 53 * step q = 2 ^ (53 + spare q) := (Nat.pow_add 2 53 (spare q)).symm
    rw [he, Nat.log2_two_pow]
  have hs : spare (2 ^ 53 * step q) = spare q + 1 := by
    rw [spare, hl]
    omega
  rw [step, hs, step]
  exact Nat.pow_succ'

theorem basin_low_le (units : ℕ) : (basin units).low ≤ 4 * units - step units := by
  rw [basin]
  dsimp only
  rw [← step]
  split
  · exact Nat.le_refl _
  · exact Nat.sub_le_sub_left (Nat.le_mul_of_pos_left _ Nat.two_pos) _

theorem le_basin_low (units : ℕ) : 4 * units - 2 * step units ≤ (basin units).low := by
  rw [basin]
  dsimp only
  rw [← step]
  split
  · exact Nat.sub_le_sub_left (Nat.le_mul_of_pos_left _ Nat.two_pos) _
  · exact Nat.le_refl _

/-- The basin of a power of two reaches down half as far as up, since the numbers below are closer. -/
theorem basin_low_cases (units : ℕ) : (basin units).low = 4 * units - 2 * step units ∨
    0 < spare units ∧ units = 2 ^ units.log2 := by
  rw [basin]
  dsimp only
  rw [← step]
  split
  · rename_i h
    simp only [Bool.and_eq_true, decide_eq_true_eq, beq_iff_eq] at h
    exact .inr h
  · exact .inl rfl

theorem has_of_le {b : Basin} {n d : ℕ} (h1 : b.low * d ≤ n) (h2 : n ≤ b.high * d)
    (hc : b.closed = true ∨ b.low * d < n ∧ n < b.high * d) : b.has n d = true := by
  rw [Basin.has]
  split
  · simp [h1, h2]
  · rename_i h
    simpa using hc.resolve_left h

section HasRounded

variable {n d : ℕ} (hd : 0 < d)

theorem rounded_mul (n d : ℕ) :
    rounded n d * d = nearest n (d * step (n / d)) * (d * step (n / d)) := by
  have hr : rounded n d = nearest n (d * step (n / d)) * step (n / d) := rfl
  rw [hr]
  ring

include hd

/-- Without a carry the numbers around are as far apart as those that were rounded to. -/
theorem step_rounded (hlt : nearest n (d * step (n / d)) < 2 ^ 53) :
    spare (rounded n d) = spare (n / d) ∧ step (rounded n d) = step (n / d) := by
  have hr : rounded n d = nearest n (d * step (n / d)) * step (n / d) := rfl
  have hsp : spare (rounded n d) = spare (n / d) := by
    rw [hr, spare_mul_step hlt fun h => ((nearest_bounds hd).2 h).1]
  exact ⟨hsp, by rw [step, hsp, step]⟩

theorem has_rounded_of_lt (hlt : nearest n (d * step (n / d)) < 2 ^ 53) :
    (basin (rounded n d)).has (4 * n) d = true := by
  obtain ⟨hsp, hs⟩ := step_rounded hd hlt
  have hr : rounded n d = nearest n (d * step (n / d)) * step (n / d) := rfl
  have hge := (nearest_bounds (n := n) hd).2
  have hpos : 0 < d * step (n / d) := Nat.mul_pos hd (step_pos _)
  obtain ⟨h1, h2, h3⟩ := nearest_spec (n := n) hpos
  have hU := rounded_mul n d
  generalize nearest n (d * step (n / d)) = a at hlt hr hge h1 h2 h3 hU
  generalize hD : d * step (n / d) = D at hpos hge h1 h2 h3 hU
  have hhd : (basin (rounded n d)).high * d = 4 * (a * D) + 2 * D := by
    have hhigh : (basin (rounded n d)).high = 4 * rounded n d + 2 * step (rounded n d) := rfl
    rw [hhigh, hs, Nat.add_mul, Nat.mul_assoc, hU, ← hD]
    ring
  have hclosed : (basin (rounded n d)).closed = (a % 2 == 0) := by
    have hdiv : rounded n d / step (rounded n d) = a := by
      rw [hs, hr, Nat.mul_div_cancel _ (step_pos _)]
    rw [← hdiv]
    rfl
  rcases basin_low_cases (rounded n d) with hlow | ⟨hpos', htwo⟩
  · have hld : (basin (rounded n d)).low * d = 4 * (a * D) - 2 * D := by
      rw [hlow, hs, Nat.sub_mul, Nat.mul_assoc, hU, ← hD]
      ring_nf
    refine has_of_le (by omega) (by omega) ?_
    by_cases heven : a % 2 = 0
    · exact .inl (by rw [hclosed, heven]; rfl)
    · have : D ≤ a * D := Nat.le_mul_of_pos_left D (by omega)
      exact .inr (by omega)
  · -- at a power of two nothing was rounded up from below it
    obtain ⟨ha52, hle52⟩ := hge (hsp ▸ hpos')
    obtain rfl : a = 2 ^ 52 := by
      rw [hr, log2_mul_step hlt ha52, Nat.pow_add] at htwo
      exact Nat.eq_of_mul_eq_mul_right (step_pos _) htwo
    have hld : (basin (rounded n d)).low * d ≤ 4 * (2 ^ 52 * D) - D := by
      refine Nat.le_trans (Nat.mul_le_mul_right d (basin_low_le _)) ?_
      rw [Nat.sub_mul, Nat.mul_assoc, hU, hs, ← hD, Nat.mul_comm d]
    exact has_of_le (by omega) (by omega) (.inl (by rw [hclosed]; rfl))

/-- With a carry it is the next power of two, above which numbers are twice as far apart. -/
theorem has_rounded_of_eq (ha : nearest n (d * step (n / d)) = 2 ^ 53) :
    (basin (rounded n d)).has (4 * n) d = true := by
  have hr : rounded n d = nearest n (d * step (n / d)) * step (n / d) := rfl
  have hpos : 0 < d * step (n / d) := Nat.mul_pos hd (step_pos _)
  obtain ⟨h1, h2, -⟩ := nearest_spec (n := n) hpos
  have hU := rounded_mul n d
  rw [ha] at hr h1 h2 hU
  generalize hD : d * step (n / d) = D at hpos h1 h2 hU
  have hs : step (rounded n d) = 2 * step (n / d) := by rw [hr, step_pow_mul_step]
  have hlow : (basin (rounded n d)).low * d ≤ 4 * (2 ^ 53 * D) - 2 * D := by
    refine Nat.le_trans (Nat.mul_le_mul_right d (basin_low_le _)) ?_
    rw [Nat.sub_mul, Nat.mul_assoc, hU, hs, ← hD]
    exact Nat.le_of_eq (by ring_nf)
  have hhd : (basin (rounded n d)).high * d = 4 * (2 ^ 53 * D) + 4 * D := by
    have hhigh : (basin (rounded n d)).high = 4 * rounded n d + 2 * step (rounded n d) := rfl
    rw [hhigh, hs, Nat.add_mul, Nat.mul_assoc, hU, ← hD]
    ring
  have hclosed : (basin (rounded n d)).closed = (rounded n d / step (rounded n d) % 2 == 0) := rfl
  refine has_of_le (by omega) (by omega) (.inl ?_)
  rw [hclosed, hs, hr, Nat.mul_div_mul_right _ _ (step_pos _)]
  rfl

/-- **What is rounded lies in the basin of what it is rounded to.** -/
theorem has_rounded : (basin (rounded n d)).has (4 * n) d = true := by
  rcases Nat.lt_or_eq_of_le (nearest_bounds (n := n) hd).1 with hlt | heq
  · exact has_rounded_of_lt hd hlt
  · exact has_rounded_of_eq hd heq

end HasRounded

/-! ### Natural numbers -/

/-- A natural number of 53 binary digits is a number as it is. -/
theorem ofNat_of_lt {n : ℕ} (h : n < 2 ^ 53) : ofNat n = .finite false (n * one) := by
  obtain ⟨k, hk, hone⟩ : ∃ k, k = 1074 ∧ one = 2 ^ k := ⟨1074, rfl, by decide +kernel⟩
  have hdvd : step (n * one) ∣ n * one := by
    refine Nat.dvd_mul_left_of_dvd ?_ n
    rcases Nat.eq_zero_or_pos n with rfl | hn
    · rw [Nat.zero_mul]
      exact Nat.one_dvd one
    · have hlt : n * one < 2 ^ (53 + k) := by
        rw [Nat.pow_add, ← hone]
        exact Nat.mul_lt_mul_of_pos_right h one_pos
      have hne : n * one ≠ 0 := Nat.mul_ne_zero (Nat.pos_iff_ne_zero.1 hn) (Nat.pos_iff_ne_zero.1 one_pos)
      have hle : spare (n * one) ≤ k := by
        have := (Nat.log2_lt hne).2 hlt
        rw [spare]
        omega
      calc step (n * one) = 2 ^ spare (n * one) := rfl
        _ ∣ 2 ^ k := Nat.pow_dvd_pow 2 hle
        _ = one := hone.symm
  have hr : rounded (n * one) 1 = n * one := by
    have hs := step_pos (n * one)
    rw [rounded, Nat.div_one, Nat.one_mul]
    change nearest (n * one) (step (n * one)) * step (n * one) = _
    rw [nearest_of_dvd hs hdvd, Nat.div_mul_cancel hdvd]
  have hlimit : 2 ^ 53 * one < limit := by decide +kernel
  rw [ofNat, ofUnits, hr, if_pos (Nat.lt_trans (Nat.mul_lt_mul_of_pos_right h one_pos) hlimit)]

/-! ### Digits that survive -/

theorem contains_middle {units : ℕ} (h : 0 < units) : (basin units).Contains (basin units).middle := by
  have hs := step_pos units
  have hlow := basin_low_le units
  have hhigh : (basin units).high = 4 * units + 2 * step units := rfl
  have hmid : (basin units).middle = 4 * units := rfl
  have hlt : (basin units).low < (basin units).middle ∧ (basin units).middle < (basin units).high := by
    omega
  rw [Basin.Contains]
  split
  · exact_mod_cast And.imp Nat.le_of_lt Nat.le_of_lt hlt
  · exact_mod_cast hlt

/-- What lies in a basin is at least half and at most one and a half times its middle. -/
theorem Basin.Contains.bounds {units : ℕ} {x : ℚ} (h : (basin units).Contains x) (hu : 0 < units) :
    2 * (units : ℚ) ≤ x ∧ x ≤ 6 * units := by
  have hs := step_le hu
  have h1 : 2 * units ≤ (basin units).low := Nat.le_trans (by omega) (le_basin_low units)
  have h2 : (basin units).high ≤ 6 * units := by
    rw [show (basin units).high = 4 * units + 2 * step units from rfl]
    omega
  constructor
  · exact (by exact_mod_cast h1 : (2 * units : ℚ) ≤ (basin units).low).trans h.le.1
  · exact h.le.2.trans (by exact_mod_cast h2)

theorem one_eq : (one : ℚ) = 2 ^ (1074 : ℤ) := by
  have h : one = 2 ^ 1074 := by decide +kernel
  rw [h, Nat.cast_pow, Nat.cast_ofNat, ← zpow_natCast]
  rfl

theorem exists_quarters_eq_zpow :
    ∃ u : ℚ, 0 < u ∧ u = 2 ^ (1076 : ℤ) ∧ ∀ m e, quarters m e = m * 10 ^ e * u := by
  obtain ⟨u, hpos, hue, hq⟩ := exists_quarters_eq
  refine ⟨u, hpos, ?_, hq⟩
  rw [hue, one_eq, show (4 : ℚ) = 2 ^ (2 : ℤ) by norm_num, ← zpow_add₀ (by norm_num)]
  rfl

/-! Powers of ten between powers of two: `2^93 < 10^28` and `10^3 < 2^10`. -/

theorem exponent_lt_of_two_lt_ten {b : ℤ} {k : ℕ} (h : (2 : ℚ) ^ b < 10 ^ k) : 3 * b < 10 * k := by
  have h1 : (2 : ℚ) ^ (b * 3) < 2 ^ ((10 * k : ℕ) : ℤ) :=
    calc (2 : ℚ) ^ (b * 3) = ((2 : ℚ) ^ b) ^ 3 := by rw [zpow_mul]; norm_cast
      _ < ((10 : ℚ) ^ k) ^ 3 := by gcongr
      _ = (10 ^ 3) ^ k := pow_right_comm ..
      _ ≤ (2 ^ 10) ^ k := by gcongr; norm_num
      _ = 2 ^ ((10 * k : ℕ) : ℤ) := by rw [← pow_mul, zpow_natCast]
  have := (zpow_lt_zpow_iff_right₀ (by norm_num)).1 h1
  omega

theorem exponent_lt_of_ten_lt_two {b : ℤ} {k : ℕ} (h : (10 : ℚ) ^ k < 2 ^ b) : 93 * k < 28 * b := by
  have h1 : (2 : ℚ) ^ ((93 * k : ℕ) : ℤ) < 2 ^ (b * 28) :=
    calc (2 : ℚ) ^ ((93 * k : ℕ) : ℤ) = (2 ^ 93) ^ k := by rw [zpow_natCast, pow_mul]
      _ ≤ (10 ^ 28) ^ k := by gcongr; norm_num
      _ = (10 ^ k) ^ 28 := pow_right_comm ..
      _ < ((2 : ℚ) ^ b) ^ 28 := by gcongr
      _ = 2 ^ (b * 28) := by rw [zpow_mul]; norm_cast
  have := (zpow_lt_zpow_iff_right₀ (by norm_num)).1 h1
  omega

theorem four_lt_quarters {e : ℤ} (he : -15 ≤ e) : 4 < quarters 1 e := by
  obtain ⟨u, hpos, hue, hq⟩ := exists_quarters_eq
  have h15 : (10 : ℚ) ^ (-15 : ℤ) ≤ 10 ^ e := zpow_le_zpow_right₀ (by norm_num) he
  have hone : (10 : ℚ) ^ 15 < one := by exact_mod_cast (by decide +kernel : 10 ^ 15 < one)
  have hu15 : 4 * 10 ^ 15 < u := by linarith
  rw [hq]
  calc (4 : ℚ) = (1 : ℕ) * 10 ^ (-15 : ℤ) * (4 * 10 ^ 15) := by norm_num
    _ < (1 : ℕ) * 10 ^ (-15 : ℤ) * u := by gcongr
    _ ≤ (1 : ℕ) * 10 ^ e * u := by gcongr

section Digits

variable {units m : ℕ} {e : ℤ} (hu : 0 < units) (hc : (basin units).Contains (quarters m e))
include hu hc

/-- The middle of a basin is not too large for a decimal in it of at most 15 digits. -/
theorem two_zpow_lt_of_contains (hm : m < 10 ^ 15) :
    (2 : ℚ) ^ ((units.log2 : ℤ) - 1075) < 10 ^ (15 + e) := by
  have hlow := (hc.bounds hu).1
  have hl : (2 : ℚ) ^ (units.log2 : ℤ) ≤ units := by
    rw [zpow_natCast]
    exact_mod_cast Nat.log2_self_le (Nat.pos_iff_ne_zero.1 hu)
  have hm' : (m : ℚ) < 10 ^ 15 := by exact_mod_cast hm
  obtain ⟨u, hpos, hu2, hq⟩ := exists_quarters_eq_zpow
  rw [hq, mul_assoc] at hlow
  have h1 : (2 : ℚ) ^ ((units.log2 : ℤ) - 1075) * u = 2 * 2 ^ (units.log2 : ℤ) := by
    rw [hu2, ← zpow_add₀ (by norm_num), ← zpow_one_add₀ (by norm_num)]
    congr 1
    omega
  have h2 : (m : ℚ) * (10 ^ e * u) < 10 ^ 15 * (10 ^ e * u) := by gcongr
  have h3 : (10 : ℚ) ^ (15 + e) * u = 10 ^ 15 * (10 ^ e * u) := by
    rw [zpow_add₀ (by norm_num), mul_assoc]
    rfl
  refine lt_of_mul_lt_mul_right ?_ hpos.le
  rw [h1, h3]
  linarith

/-- Nor is it too small for one that is not zero. -/
theorem ten_zpow_lt_of_contains (h0 : 0 < m) : (10 : ℚ) ^ e < 2 ^ ((units.log2 : ℤ) - 1072) := by
  have hhigh := (hc.bounds hu).2
  have hr : (units : ℚ) < 2 ^ ((units.log2 : ℤ) + 1) := by
    exact_mod_cast (Nat.lt_log2_self : units < 2 ^ (units.log2 + 1))
  have hm1 : (1 : ℚ) ≤ m := by exact_mod_cast h0
  obtain ⟨u, hpos, hu2, hq⟩ := exists_quarters_eq_zpow
  rw [hq, mul_assoc] at hhigh
  have h1 : (2 : ℚ) ^ ((units.log2 : ℤ) - 1072) * u = 8 * 2 ^ ((units.log2 : ℤ) + 1) := by
    rw [hu2, show (8 : ℚ) = 2 ^ (3 : ℤ) by norm_num, ← zpow_add₀ (by norm_num),
      ← zpow_add₀ (by norm_num)]
    congr 1
    omega
  have h2 : 1 * (10 ^ e * u) ≤ (m : ℚ) * (10 ^ e * u) := by gcongr
  refine lt_of_mul_lt_mul_right ?_ hpos.le
  rw [h1]
  linarith

variable (hm : m < 10 ^ 15) (he : -15 ≤ e)
include hm he

/-- A basin with a decimal of at most 15 digits in it is narrower than its last digit counts. -/
theorem narrow_of_contains : ((basin units).high : ℚ) - (basin units).low < quarters 1 e := by
  obtain ⟨u, hpos, hue, hq⟩ := exists_quarters_eq
  have hw : ((basin units).high : ℚ) - (basin units).low ≤ 4 * step units := by
    have h1 := le_basin_low units
    have h2 : (basin units).high = 4 * units + 2 * step units := rfl
    rw [sub_le_iff_le_add]
    exact_mod_cast (by omega : (basin units).high ≤ 4 * step units + (basin units).low)
  refine hw.trans_lt ?_
  have hbound := (hc.bounds hu).1
  rcases Nat.eq_zero_or_pos (spare units) with h0 | h0
  · rw [step, h0, show Nat.pow 2 0 = 1 from rfl, Nat.cast_one, mul_one]
    exact four_lt_quarters he
  · have hp : (0 : ℚ) < 10 ^ e * u := by positivity
    have hstep : (2 ^ 52 : ℚ) * step units ≤ units := by exact_mod_cast pow_mul_step_le h0
    have hm' : (m : ℚ) < 10 ^ 15 := by exact_mod_cast hm
    have hlt : (m : ℚ) * (10 ^ e * u) < 10 ^ 15 * (10 ^ e * u) := by gcongr
    have h52 : (2 : ℚ) ^ 52 = 4503599627370496 := by norm_num
    rw [hq] at hbound ⊢
    rw [h52] at hstep
    push_cast
    linarith

/-- **The search starts above the decimal and not too far above it.** -/
theorem topExponent_bounds (h0 : 0 < m) (he' : e ≤ 15) :
    e ≤ topExponent units ∧ topExponent units < e + 40 := by
  have habove := two_zpow_lt_of_contains hu hc hm
  have hbelow := ten_zpow_lt_of_contains hu hc h0
  obtain ⟨k, hk⟩ := Int.eq_ofNat_of_zero_le (show 0 ≤ 15 + e by omega)
  rw [hk] at habove
  have h3 := exponent_lt_of_two_lt_ten habove
  rw [topExponent]
  rcases Int.le_total 0 e with hpe | hne
  · obtain ⟨j, rfl⟩ := Int.eq_ofNat_of_zero_le hpe
    have := exponent_lt_of_ten_lt_two hbelow
    omega
  · obtain ⟨j, hj⟩ := Int.eq_ofNat_of_zero_le (Int.neg_nonneg.2 hne)
    obtain rfl : e = -j := by omega
    have hinv : (2 : ℚ) ^ (1072 - (units.log2 : ℤ)) < 10 ^ j := by
      rw [show (1072 : ℤ) - units.log2 = -((units.log2 : ℤ) - 1072) by omega, zpow_neg]
      rw [zpow_neg, zpow_natCast] at hbelow
      exact inv_lt_of_inv_lt₀ (by positivity) hbelow
    have := exponent_lt_of_two_lt_ten hinv
    omega

end Digits

section Rounded

variable {n d m : ℕ} {e : ℤ} (hd : 0 < d) (hm : 0 < m) (hm' : m < 10 ^ 15) (he : -15 ≤ e) (he' : e ≤ 15)
  (h : (n : ℚ) / d = m * 10 ^ e * one)
include hd h

/-- A decimal lies in the basin of the number that it is rounded to. -/
theorem contains_rounded : (basin (rounded n d)).Contains (quarters m e) := by
  have hq : quarters m e = ((4 * n : ℕ) : ℚ) / d := by
    rw [Nat.cast_mul, mul_div_assoc, h, quarters, Nat.cast_ofNat]
    ring
  rw [hq]
  exact (Basin.has_iff hd).1 (has_rounded hd)

include hm he

theorem rounded_pos : 0 < rounded n d := by
  refine Nat.pos_of_ne_zero fun h0 => ?_
  have hc := (contains_rounded hd h).le.2
  rw [h0, show (basin 0).high = 2 from rfl] at hc
  have h4 := (four_lt_quarters he).trans_le (quarters_mono hm e)
  norm_num at hc
  linarith

include hm' he'

/-- **A decimal of at most 15 digits survives rounding**, less the zeros at its end. -/
theorem shortest_rounded (hten : m % 10 ≠ 0) (tie : Tie) : shortest tie (rounded n d) = ⟨m, e⟩ := by
  have hu : 0 < rounded n d := rounded_pos hd hm he h
  have hc := contains_rounded hd h
  obtain ⟨hle, hlt⟩ := topExponent_bounds hu hc hm' he hm he'
  rw [shortest, if_neg (Nat.ne_of_gt hu)]
  exact Basin.search_of_narrow (contains_middle hu) hc hten (narrow_of_contains hu hc hm' he) hle hlt

/-- It is far from the numbers that are too large. -/
theorem rounded_lt_limit : rounded n d < limit := by
  have hu : 0 < rounded n d := rounded_pos hd hm he h
  have hbound := ((contains_rounded hd h).bounds hu).1
  have hmq : (m : ℚ) ≤ 10 ^ 15 := by exact_mod_cast hm'.le
  have he15 : (10 : ℚ) ^ e ≤ 10 ^ (15 : ℕ) := by
    rw [← zpow_natCast]
    exact zpow_le_zpow_right₀ (by norm_num) he'
  have hlimit : (10 : ℚ) ^ 15 * 10 ^ 15 * (4 * one) < limit := by
    exact_mod_cast (by decide +kernel : 10 ^ 15 * 10 ^ 15 * (4 * one) < limit)
  obtain ⟨u, hpos, hue, hq⟩ := exists_quarters_eq
  rw [hq] at hbound
  rw [← hue] at hlimit
  have hle : (m : ℚ) * 10 ^ e * u ≤ 10 ^ 15 * 10 ^ 15 * u := by gcongr
  have hlt : (rounded n d : ℚ) < limit := by
    have : (0 : ℚ) ≤ rounded n d := Nat.cast_nonneg _
    linarith
  exact_mod_cast hlt

end Rounded

end Binary64
end Retarget
