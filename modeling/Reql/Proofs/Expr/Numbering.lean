import Mathlib.Data.List.Nodup
import Reql.Expr.Elaboration

/-! The numbers a counter hands out: how many an expression takes, and that none comes twice. -/
namespace Reql.Expr

mutual

/-- How many parameters all functions with named parameters have together. -/
def parameters : Expr → Nat
  | .term _ | .arg _ => 0
  | .op _ args optargs => argsParameters args + optargsParameters optargs
  | .func _ body => parameters body
  | .lambda params body => params.length + parameters body
  | .withOptarg receiver _ value => parameters receiver + parameters value

def argsParameters : List Expr → Nat
  | [] => 0
  | e :: rest => parameters e + argsParameters rest

def optargsParameters : List (String × Expr) → Nat
  | [] => 0
  | (_, e) :: rest => parameters e + optargsParameters rest

end

def numbers (next : VarId) (n : Nat) : List VarId :=
  (freshIds next n).1

variable {next d id : VarId} {m n i : Nat}

theorem add_ofNat_succ : next + .ofNat (i + 1) = next + 1 + .ofNat i := by
  rw [Nat.add_comm, Int64.ofNat_add, ← Int64.add_assoc]
  rfl

theorem numbers_eq_map : numbers next n = (List.range n).map fun i => next + .ofNat i := by
  induction n generalizing next with
  | zero => rfl
  | succ n ih =>
    have hnumbers : numbers next (n + 1) = next :: numbers (next + 1) n := rfl
    rw [hnumbers, ih, List.range_succ_eq_map, List.map_cons, List.map_map]
    refine congrArg₂ List.cons (Int64.add_zero next).symm ?_
    exact List.map_congr_left fun i _ => add_ofNat_succ.symm

/-- The counter has moved by as many numbers as it has handed out. -/
theorem freshIds_eq : freshIds next n = (numbers next n, next + .ofNat n) := by
  refine Prod.ext rfl ?_
  change (freshIds next n).2 = next + .ofNat n
  induction n generalizing next with
  | zero => exact (Int64.add_zero next).symm
  | succ n ih => rw [freshIds, ih, add_ofNat_succ]

theorem length_numbers : (numbers next n).length = n := by
  rw [numbers_eq_map, List.length_map, List.length_range]

/-- What is handed out in two steps. -/
theorem numbers_add :
    numbers next (m + n) = numbers next m ++ numbers (next + .ofNat m) n := by
  rw [numbers_eq_map, numbers_eq_map, numbers_eq_map, List.range_add, List.map_append, List.map_map]
  refine congrArg _ (List.map_congr_left fun i _ => ?_)
  rw [Function.comp_apply, Int64.ofNat_add, Int64.add_assoc]

/-- From a counter that is ahead, the numbers are ahead by as much. -/
theorem numbers_shift : numbers (next + d) n = (numbers next n).map (· + d) := by
  rw [numbers_eq_map, numbers_eq_map, List.map_map]
  refine List.map_congr_left fun i _ => ?_
  rw [Function.comp_apply, Int64.add_assoc, Int64.add_comm d, Int64.add_assoc]

/-- The counter does not wrap around before it has handed out so many numbers. -/
def Suffices (next : VarId) (n : Nat) : Prop :=
  next.toInt + n ≤ Int64.maxValue.toInt + 1

instance (next : VarId) (n : Nat) : Decidable (Suffices next n) :=
  inferInstanceAs (Decidable (_ ≤ _))

theorem Suffices.toInt_add (h : Suffices next n) (hi : i < n) :
    (next + .ofNat i).toInt = next.toInt + i := by
  have hle := next.le_toInt
  have hsize : Int64.size = 2 ^ 64 := rfl
  have hmax : Int64.maxValue.toInt = 2 ^ 63 - 1 := rfl
  unfold Suffices at h
  rw [Int64.toInt_add, Int64.toInt_ofNat', hsize, Int.add_bmod_bmod]
  exact Int.bmod_eq_of_le (by omega) (by omega)

/-- The numbers stand between the counter before and after. -/
theorem Suffices.bounds (h : Suffices next n) (hid : id ∈ numbers next n) :
    next.toInt ≤ id.toInt ∧ id.toInt < next.toInt + n := by
  rw [numbers_eq_map] at hid
  obtain ⟨i, hi, rfl⟩ := List.mem_map.mp hid
  rw [List.mem_range] at hi
  rw [h.toInt_add hi]
  omega

/-- No number is handed out twice. -/
theorem Suffices.nodup (h : Suffices next n) : (numbers next n).Nodup := by
  rw [numbers_eq_map]
  refine List.nodup_range.map_on fun i hi j hj heq => ?_
  have htoInt := congrArg Int64.toInt heq
  rw [h.toInt_add (List.mem_range.mp hi), h.toInt_add (List.mem_range.mp hj)] at htoInt
  omega

end Reql.Expr
