import ModulePins.SemVer.Basic

/-!
# Precedence as an order

Precedence compares any two versions and is transitive, so that a version which no other one
outranks can be found by comparing in pairs. It is no order on versions: those that differ only in
their builds have equal precedence.
-/

namespace ModulePins

namespace Identifier

instance : Std.TransCmp order where
  eq_swap := by
    intro a b
    cases a <;> cases b
    case numeric.numeric m n => exact (Std.OrientedCmp.eq_swap : compare m n = _)
    case word.word s t => exact (Std.OrientedCmp.eq_swap : compare s t = _)
    all_goals rfl
  isLE_trans := by
    intro a b c hab hbc
    cases a <;> cases b <;> cases c
    case numeric.numeric.numeric m _ k =>
      change (compare m k).isLE = true
      exact Std.TransCmp.isLE_trans hab hbc
    case word.word.word s _ u =>
      change (compare s u).isLE = true
      exact Std.TransCmp.isLE_trans hab hbc
    -- Otherwise no word comes before a number, and a number comes before every word.
    all_goals simp_all [order]

instance : Std.TransOrd Identifier :=
  inferInstanceAs (Std.TransCmp order)

end Identifier

namespace SemVer

instance : Std.TransCmp prereleaseOrder where
  eq_swap := by
    intro a b
    cases a <;> cases b
    case cons.cons x xs y ys => exact (Std.OrientedCmp.eq_swap : compare (x :: xs) (y :: ys) = _)
    all_goals rfl
  isLE_trans := by
    intro a b c hab hbc
    cases a <;> cases b <;> cases c
    case cons.cons.cons x xs _ _ z zs =>
      change (compare (x :: xs) (z :: zs)).isLE = true
      exact Std.TransCmp.isLE_trans hab hbc
    -- Otherwise one of the three is a release, which comes after all.
    all_goals simp_all [prereleaseOrder]

instance : Std.TransCmp fun v w : SemVer => prereleaseOrder v.prerelease w.prerelease where
  eq_swap := by
    intro v w
    exact (Std.OrientedCmp.eq_swap : prereleaseOrder v.prerelease w.prerelease = _)
  isLE_trans := by
    intro u v w huv hvw
    exact Std.TransCmp.isLE_trans huv hvw

instance : Std.TransCmp precedence :=
  inferInstanceAs <| Std.TransCmp <|
    compareLex (compareOn major) <| compareLex (compareOn minor) <|
      compareLex (compareOn patch) fun v w => prereleaseOrder v.prerelease w.prerelease

variable {u v w : SemVer}

theorem precedes_eq_false_iff : v.precedes w = false ↔ (precedence w v).isLE = true := by
  have hswap : precedence w v = (precedence v w).swap := Std.OrientedCmp.eq_swap
  rw [precedes, hswap]
  cases precedence v w <;> decide

theorem precedes_self (v : SemVer) : v.precedes v = false :=
  precedes_eq_false_iff.mpr Std.ReflCmp.isLE_rfl

theorem not_precedes_trans (huv : u.precedes v = false) (hvw : v.precedes w = false) :
    u.precedes w = false := by
  rw [precedes_eq_false_iff] at huv hvw ⊢
  exact Std.TransCmp.isLE_trans hvw huv

theorem not_precedes_of_precedes (h : v.precedes w = true) : w.precedes v = false := by
  rw [precedes, beq_iff_eq] at h
  rw [precedes_eq_false_iff, h]
  rfl

theorem precedence_eq_of_not_precedes (hvw : v.precedes w = false) (hwv : w.precedes v = false) :
    precedence v w = .eq := by
  rw [precedes_eq_false_iff] at hvw hwv
  exact Std.OrientedCmp.isLE_antisymm hwv hvw

end SemVer

end ModulePins
