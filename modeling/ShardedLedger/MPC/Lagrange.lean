import Mathlib.LinearAlgebra.Lagrange
import Mathlib.Algebra.BigOperators.Fin
import Mathlib.Algebra.BigOperators.Pi

/-! The algebra under `ReconstructSecret`: loops over `enum` as sums and products over `Fin n`,
and Lagrange's formula at `0` in the shape the code computes it, numerator and denominator apart. -/

namespace ShardedLedger.MPC
open Finset Polynomial

section Loops
variable {α M : Type*}

theorem enum_eq_ofFn (l : List α) : l.enum = List.ofFn fun k : Fin l.length => ((k : ℕ), l.get k) :=
  List.ext_get (by simp) fun n _ _ => by simp [List.getElem_enum]

private theorem foldl_mul_eq [CommMonoid M] (l : List α) (h : α → M) (a : M) :
    l.foldl (fun acc x => acc * h x) a = a * (l.map h).prod := by
  induction l generalizing a with
  | nil => simp
  | cons x l ih => rw [List.foldl_cons, ih, List.map_cons, List.prod_cons, mul_assoc]

private theorem foldl_add_eq [AddCommMonoid M] (l : List α) (h : α → M) (a : M) :
    l.foldl (fun acc x => acc + h x) a = a + (l.map h).sum := by
  induction l generalizing a with
  | nil => simp
  | cons x l ih => rw [List.foldl_cons, ih, List.map_cons, List.sum_cons, add_assoc]

theorem foldl_mul_enum [CommMonoid M] (l : List α) (g : ℕ × α → M) (a : M) :
    l.enum.foldl (fun acc kx => acc * g kx) a = a * ∏ k : Fin l.length, g ((k : ℕ), l.get k) := by
  rw [foldl_mul_eq, enum_eq_ofFn, List.map_ofFn, List.prod_ofFn]
  rfl

theorem foldl_add_enum [AddCommMonoid M] (l : List α) (g : ℕ × α → M) (a : M) :
    l.enum.foldl (fun acc kx => acc + g kx) a = a + ∑ k : Fin l.length, g ((k : ℕ), l.get k) := by
  rw [foldl_add_eq, enum_eq_ofFn, List.map_ofFn, List.sum_ofFn]
  rfl

theorem prod_skip_eq [CommMonoid M] {n : ℕ} (i : Fin n) (g : Fin n → M) :
    ∏ j : Fin n, (if (i : ℕ) = (j : ℕ) then 1 else g j) = ∏ j ∈ univ.erase i, g j := by
  rw [← mul_prod_erase univ _ (mem_univ i), if_pos rfl, one_mul]
  exact prod_congr rfl fun j hj => if_neg fun h => ne_of_mem_erase hj (Fin.ext h).symm

end Loops

variable {F : Type*} [Field F]

theorem eval_zero_eq_lagrange {n : ℕ} (v : Fin n → F) (hv : Function.Injective v) (f : F[X])
    (hf : f.degree < n) :
    f.eval 0 = ∑ i, f.eval (v i) * (∏ j ∈ univ.erase i, -v j) * (∏ j ∈ univ.erase i, (v i - v j))⁻¹ := by
  conv_lhs =>
    rw [Lagrange.eq_interpolate (f := f) (s := univ) hv.injOn (by rwa [card_univ, Fintype.card_fin])]
  rw [Lagrange.interpolate_apply, eval_finset_sum]
  refine sum_congr rfl fun i _ => ?_
  rw [eval_mul, eval_C, Lagrange.basis, eval_prod, mul_assoc, ← prod_inv_distrib, ← prod_mul_distrib]
  refine congrArg _ (prod_congr rfl fun j _ => ?_)
  rw [Lagrange.basisDivisor, eval_mul, eval_C, eval_sub, eval_X, eval_C, zero_sub, mul_comm]

end ShardedLedger.MPC
