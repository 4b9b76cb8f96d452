import Mathlib.Tactic

/-!
# Positions in words that wrap around

A counter kept in a word of `w` bits, and a ring whose length divides `2 ^ w`, so that a word names
the same cell of the ring as the number it was made from.

* `eq_of_ofNat_eq`, `eq_or_far`: what equal words say about the numbers.
-/

namespace Wrapping

open BitVec

variable {w a b : ℕ}

theorem ofNat_eq_iff : BitVec.ofNat w a = BitVec.ofNat w b ↔ a % 2 ^ w = b % 2 ^ w := by
  rw [← toNat_inj, toNat_ofNat, toNat_ofNat]

theorem eq_or_far (le : a ≤ b) (same : BitVec.ofNat w a = BitVec.ofNat w b) :
    a = b ∨ a + 2 ^ w ≤ b := by
  by_contra neither
  obtain ⟨ne, near⟩ := not_or.1 neither
  have dvd : 2 ^ w ∣ b - a := (Nat.modEq_iff_dvd' le).1 (ofNat_eq_iff.1 same)
  have := Nat.le_of_dvd (by omega) dvd
  omega

theorem eq_of_ofNat_eq (le : a ≤ b) (near : b < a + 2 ^ w)
    (same : BitVec.ofNat w a = BitVec.ofNat w b) : a = b :=
  (eq_or_far le same).resolve_right near.not_ge

section Ring

variable {n : ℕ}

theorem toNat_mod (dvd : n ∣ 2 ^ w) (a : ℕ) : (BitVec.ofNat w a).toNat % n = a % n := by
  rw [toNat_ofNat, Nat.mod_mod_of_dvd _ dvd]

theorem succ_mod_ne (dvd : n ∣ 2 ^ w) (two : 2 ≤ n) (x : BitVec w) :
    (x + 1).toNat % n ≠ x.toNat % n := by
  rw [show x + 1 = BitVec.ofNat w (x.toNat + 1) by simp [ofNat_add], toNat_mod dvd]
  intro same
  have dvd : n ∣ x.toNat + 1 - x.toNat := (Nat.modEq_iff_dvd' (by omega)).1 same.symm
  have := Nat.le_of_dvd (by omega) dvd
  omega

theorem add_length_mod (dvd : n ∣ 2 ^ w) (x : BitVec w) :
    (x + BitVec.ofNat w n).toNat % n = x.toNat % n := by
  rw [show x + BitVec.ofNat w n = BitVec.ofNat w (x.toNat + n) by simp [ofNat_add],
    toNat_mod dvd, Nat.add_mod_right]

theorem window_inj {start : ℕ} (ha : start ≤ a) (ha' : a < start + n) (hb : start ≤ b)
    (hb' : b < start + n) (same : a % n = b % n) : a = b := by
  rcases le_total a b with le | le
  · have dvd : n ∣ b - a := (Nat.modEq_iff_dvd' le).1 same
    have := Nat.eq_zero_of_dvd_of_lt dvd (by omega)
    omega
  · have dvd : n ∣ a - b := (Nat.modEq_iff_dvd' le).1 same.symm
    have := Nat.eq_zero_of_dvd_of_lt dvd (by omega)
    omega

theorem exists_window (start i : ℕ) (below : i < n) :
    ∃ a, start ≤ a ∧ a < start + n ∧ a % n = i := by
  have hmod := Nat.mod_add_div start n
  have hlt := Nat.mod_lt start (Nat.zero_lt_of_lt below)
  by_cases h : start % n ≤ i
  · refine ⟨n * (start / n) + i, by omega, by omega, ?_⟩
    rw [Nat.mul_add_mod, Nat.mod_eq_of_lt below]
  · refine ⟨n * (start / n + 1) + i, ?_, ?_, ?_⟩
    · rw [Nat.mul_add]
      omega
    · rw [Nat.mul_add]
      omega
    · rw [Nat.mul_add_mod, Nat.mod_eq_of_lt below]

end Ring

end Wrapping
