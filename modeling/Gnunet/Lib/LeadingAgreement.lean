import Mathlib.Data.Nat.Basic
import Mathlib.Tactic.Common

/-!
# The leading part on which two sequences agree

Two sequences are compared on their first positions. The numbers of leading positions on which three
sequences agree in pairs determine each other: the two smallest are equal, and if there are only two
values, the third one is larger.
-/

namespace Gnunet.Lib.LeadingAgreement

variable {α : Type*} {f g h : ℕ → α} {n a b c : ℕ}

structure Agreement (f g : ℕ → α) (n a : ℕ) : Prop where
  le : a ≤ n
  same : ∀ i < a, f i = g i
  differ : a < n → f a ≠ g a

namespace Agreement

variable (hfg : Agreement f g n a)
include hfg

theorem symm : Agreement g f n a where
  le := hfg.le
  same i hi := (hfg.same i hi).symm
  differ ha := (hfg.differ ha).symm

theorem eq_iff : a = n ↔ ∀ i < n, f i = g i := by
  constructor
  · rintro rfl
    exact hfg.same
  · intro hall
    by_contra hne
    have hlt : a < n := lt_of_le_of_ne hfg.le hne
    exact hfg.differ hlt (hall a hlt)

theorem le_of_differ {i : ℕ} (hi : f i ≠ g i) : a ≤ i := by
  by_contra hlt
  exact hi (hfg.same i (not_le.mp hlt))

theorem le_of_agreement (hfg' : Agreement f g n b) : a ≤ b := by
  by_contra hlt
  have hb : b < a := not_le.mp hlt
  exact hfg'.differ (lt_of_lt_of_le hb hfg.le) (hfg.same b hb)

theorem unique (hfg' : Agreement f g n b) : a = b :=
  le_antisymm (hfg.le_of_agreement hfg') (hfg'.le_of_agreement hfg)

theorem eq_of_lt (hfh : Agreement f h n b) (hgh : Agreement g h n c) (hlt : a < b) : c = a := by
  have hdiffer : g a ≠ h a := by
    rw [← hfh.same a hlt]
    exact (hfg.differ (lt_of_lt_of_le hlt hfh.le)).symm
  apply le_antisymm (hgh.le_of_differ hdiffer)
  by_contra hca
  have hc : c < a := not_le.mp hca
  apply hgh.differ (lt_of_lt_of_le hc hfg.le)
  calc g c = f c := (hfg.same c hc).symm
    _ = h c := hfh.same c (lt_trans hc hlt)

omit hfg in
theorem lt_of_eq {f g h : ℕ → Bool} (hfg : Agreement f g n a) (hfh : Agreement f h n a)
    (hgh : Agreement g h n c) (hlt : a < n) : a < c := by
  by_contra hca
  have hc : c ≤ a := not_lt.mp hca
  apply hgh.differ (lt_of_le_of_lt hc hlt)
  by_cases heq : c = a
  · subst heq
    have hg := hfg.differ hlt
    have hh := hfh.differ hlt
    revert hg hh
    cases f c <;> cases g c <;> cases h c <;> decide
  · have hless : c < a := lt_of_le_of_ne hc heq
    calc g c = f c := (hfg.same c hless).symm
      _ = h c := hfh.same c hless

end Agreement

end Gnunet.Lib.LeadingAgreement
