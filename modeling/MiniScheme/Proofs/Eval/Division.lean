import Mathlib.Data.Int.ModEq
import Mathlib.Data.Rat.Floor
import MiniScheme.Proofs.Calculus.Realization

/-!
# Quotients and remainders

A division goes through its divisors in turn and rounds toward zero after each. Nothing is lost by
rounding on the way: the answer is that of a single exact division by the product of the divisors.
A remainder has the sign of the divisor, as if the quotient were rounded down. So the two belong
together only where rounding down and rounding toward zero come to the same; elsewhere quotient and
remainder make up one divisor more than the dividend.

## Main definitions

* `Level.Evaluates`: operands have some values.
* `truncation`: rounding toward zero.

## Main statements

* `Native.run_of_evaluates`: a native is called on the values of its operands.
* `Native.run_divide`: division by several divisors.
* `Native.run_divide_modulo`: quotient and remainder.
-/

namespace MiniScheme

open Calculus (product foldl_mul quotients_eq)

/-! ## Calls on values -/

def Level.Evaluates (level : Level) (env : Env) (operands : Value) (s : EvalState)
    (args : List Value) (s' : EvalState) : Prop :=
  (level.items operands >>= level.evaluateAll env) s = .ok args s'

namespace Native

variable {level : Level} {env : Env} {operands : Value} {args : List Value} {s s' : EvalState}

/-- A native other than `apply` answers to the values of its operands. -/
theorem run_of_evaluates {p : Native} (hp : p ≠ .apply)
    (h : level.Evaluates env operands s args s') :
    p.run level env operands s = level.lift (p.compute level.depth args) s' := by
  have hrun : p.run level env operands =
      (level.items operands >>= level.evaluateAll env) >>= fun args =>
        level.lift (p.compute level.depth args) := by
    rw [bind_assoc]
    refine congrArg _ (funext fun es => congrArg _ (funext fun args => ?_))
    split
    · exact absurd rfl hp
    · rfl
  rw [hrun, EvalM.bind_of_ok h]

theorem integers_map (p : Native) (ns : List Int) : p.integers (ns.map .integer) = .ok ns := by
  induction ns with
  | nil => rfl
  | cons n ns ih => simp [integers, ih, Functor.map, Except.map]

/-- What is no integer is found whatever integers stand before it. -/
theorem integers_append (p : Native) (ns : List Int) {v : Value} (hv : ∀ n, v ≠ .integer n)
    (rest : List Value) :
    p.integers (ns.map .integer ++ v :: rest) = .error (.notAnInteger p v) := by
  induction ns with
  | nil =>
    cases v with
    | integer n => exact absurd rfl (hv n)
    | _ => rfl
  | cons n ns ih => simp [integers, ih, Functor.map, Except.map]

theorem compute_multiply (depth : Nat) (ns : List Int) :
    multiply.compute depth (ns.map .integer) = .ok (.integer (product ns)) := by
  simp only [compute, integers_map, foldl_mul, Int.one_mul]
  rfl

end Native

/-! ## Rounding toward zero -/

/-- The integer to which a rational number is rounded toward zero. -/
def truncation (q : ℚ) : ℤ := if 0 ≤ q then ⌊q⌋ else ⌈q⌉

theorem truncation_neg (q : ℚ) : truncation (-q) = -truncation q := by
  unfold truncation
  rcases lt_trichotomy q 0 with hq | rfl | hq
  · rw [if_pos (by linarith), if_neg (by linarith), Int.floor_neg]
  · simp
  · rw [if_neg (by linarith), if_pos hq.le, Int.ceil_neg]

/-- A division that rounds toward zero rounds the exact quotient. -/
theorem truncation_div (n d : Int) : truncation (n / d) = n.tdiv d := by
  have hnat (k m : Nat) : truncation (((k : Int) : ℚ) / ((m : Int) : ℚ)) = (k : Int).tdiv m := by
    rw [truncation, if_pos (by positivity)]
    exact Rat.floor_natCast_div_natCast k m
  -- both sides change their sign with the dividend and with the divisor
  obtain ⟨k, rfl | rfl⟩ := n.eq_nat_or_neg <;> obtain ⟨m, rfl | rfl⟩ := d.eq_nat_or_neg
  · exact hnat k m
  · rw [Int.cast_neg, div_neg, truncation_neg, hnat, Int.tdiv_neg]
  · rw [Int.cast_neg, neg_div, truncation_neg, hnat, Int.neg_tdiv]
  · rw [Int.cast_neg, Int.cast_neg, neg_div_neg_eq, hnat, Int.neg_tdiv, Int.tdiv_neg, Int.neg_neg]

/-- Rounding on the way is not seen in the end. -/
theorem tdiv_tdiv (n a b : Int) : (n.tdiv a).tdiv b = n.tdiv (a * b) := by
  have hnat (k i j : Nat) : ((k : Int).tdiv i).tdiv j = (k : Int).tdiv (i * j) := by
    norm_cast
    exact congrArg Int.ofNat (Nat.div_div_eq_div_mul k i j)
  obtain ⟨k, rfl | rfl⟩ := n.eq_nat_or_neg <;> obtain ⟨i, rfl | rfl⟩ := a.eq_nat_or_neg <;>
    obtain ⟨j, rfl | rfl⟩ := b.eq_nat_or_neg <;>
    simp only [Int.neg_tdiv, Int.tdiv_neg, Int.neg_mul, Int.mul_neg, Int.neg_neg, hnat]

theorem foldl_tdiv (n : Int) (ds : List Int) : ds.foldl Int.tdiv n = n.tdiv (product ds) := by
  induction ds generalizing n with
  | nil => rw [List.foldl_nil, product, Int.tdiv_one]
  | cons d ds ih => rw [List.foldl_cons, ih, tdiv_tdiv, product]

theorem product_eq_zero_iff {ns : List Int} : product ns = 0 ↔ 0 ∈ ns := by
  induction ns with
  | nil => simp [product]
  | cons n ns ih => rw [product, Int.mul_eq_zero, ih, List.mem_cons, eq_comm]

theorem product_of_perm {ns ms : List Int} (h : ns.Perm ms) : product ns = product ms := by
  induction h with
  | nil => rfl
  | cons n _ ih => rw [product, product, ih]
  | swap n m ns => simp only [product, Int.mul_left_comm]
  | trans _ _ ih ih' => exact ih.trans ih'

/-- A remainder differs from the dividend by a multiple of the divisor, and it lies between zero and
the divisor, on the side of the divisor. -/
theorem fmod_between (n : Int) {d : Int} (hd : d ≠ 0) :
    n.fmod d ≡ n [ZMOD d] ∧ (0 < d → 0 ≤ n.fmod d ∧ n.fmod d < d) ∧
      (d < 0 → d < n.fmod d ∧ n.fmod d ≤ 0) := by
  have hmod : n.fmod d ≡ n [ZMOD d] := by
    rw [Int.fmod_def]
    exact Int.modEq_iff_dvd.mpr ⟨n.fdiv d, by ring⟩
  refine ⟨hmod, fun hpos => ⟨Int.fmod_nonneg_of_pos n hpos, Int.fmod_lt_of_pos n hpos⟩, ?_⟩
  intro hneg
  have hnonneg := Int.emod_nonneg n hd
  have hlt := Int.emod_lt n hd
  rw [Int.fmod_eq_emod]
  by_cases hdvd : d ∣ n
  · rw [if_pos (.inr hdvd), Int.emod_eq_zero_of_dvd hdvd]
    omega
  · have hne : n % d ≠ 0 := fun hzero => hdvd (Int.dvd_of_emod_eq_zero hzero)
    rw [if_neg (by omega)]
    omega

/-- A quotient that is rounded toward zero is one more than the one that is rounded down if it is
negative and not exact. -/
theorem tdiv_eq_fdiv_add {n d : Int} (hd : d ≠ 0) (hdvd : ¬ d ∣ n) :
    n.tdiv d = n.fdiv d + if n.sign = d.sign then 0 else 1 := by
  have hn : n ≠ 0 := fun hzero => hdvd (hzero ▸ Int.dvd_zero d)
  rw [Int.tdiv_eq_fdiv, if_neg hdvd]
  rcases hn.lt_or_gt with hn | hn <;> rcases hd.lt_or_gt with hd | hd <;>
    simp [Int.sign_eq_one_of_pos, Int.sign_eq_neg_one_of_neg, hn, hd, hn.le, hd.le, hn.not_ge,
      hd.not_ge]

/-- What quotient and remainder make up. -/
theorem mul_tdiv_add_fmod (n : Int) {d : Int} (hd : d ≠ 0) :
    d * n.tdiv d + n.fmod d = if d ∣ n ∨ n.sign = d.sign then n else n + d := by
  have hfloor := Int.mul_fdiv_add_fmod n d
  by_cases hdvd : d ∣ n
  · rw [if_pos (.inl hdvd), Int.tdiv_eq_fdiv, if_pos hdvd, Int.add_zero, hfloor]
  · rw [tdiv_eq_fdiv_add hd hdvd]
    by_cases hsign : n.sign = d.sign
    · rw [if_pos hsign, if_pos (.inr hsign), Int.add_zero, hfloor]
    · rw [if_neg hsign, if_neg (by simp [hdvd, hsign]), Int.mul_add, Int.mul_one]
      omega

/-! ## Calls -/

namespace Native

variable {level : Level} {env : Env} {operands : Value} {args : List Value} {s s' : EvalState}

/-- What a division by several divisors comes to. -/
theorem compute_divide (depth : Nat) (n : Int) (ds : List Int) :
    divide.compute depth ((n :: ds).map .integer) =
      if 0 ∈ ds then .error .divisionByZero
      else .ok (.integer (truncation (n / product ds))) := by
  simp only [compute, integers_map]
  change (do return .integer (← quotients n ds) : Except Fault Value) = _
  rw [quotients_eq, foldl_tdiv, truncation_div]
  split <;> rfl

/-- **Division.** A division of integers fails if one of the divisors is zero, wherever it stands.
Otherwise it rounds the quotient by the product of all divisors toward zero, which is also what a
division by their product does, and the order of the divisors makes no difference. An argument
that is no integer is found before any division is made. -/
theorem run_divide (h : level.Evaluates env operands s args s') :
    (∀ n ds, args = (n :: ds).map .integer →
      divide.run level env operands s =
          (if 0 ∈ ds then .error .divisionByZero s'
            else .ok (.integer (truncation (n / product ds))) s') ∧
        multiply.compute level.depth (ds.map .integer) = .ok (.integer (product ds)) ∧
        divide.run level env operands s =
          level.lift (divide.compute level.depth [.integer n, .integer (product ds)]) s' ∧
        ∀ ds', ds'.Perm ds → divide.run level env operands s =
          level.lift (divide.compute level.depth ((n :: ds').map .integer)) s') ∧
      ∀ (ns : List Int) v rest, args = ns.map .integer ++ v :: rest → (∀ n, v ≠ .integer n) →
        v.obstacle? level.depth = none →
        divide.run level env operands s = .error (.notAnInteger .divide v) s' := by
  have hrun := run_of_evaluates (p := .divide) (by decide) h
  refine ⟨?_, ?_⟩
  · rintro n ds rfl
    rw [hrun]
    refine ⟨?_, compute_multiply level.depth ds, ?_, fun ds' hperm => ?_⟩
    · rw [compute_divide]
      split <;> rfl
    · have hproduct : 0 ∈ [product ds] ↔ 0 ∈ ds := by
        rw [List.mem_singleton, eq_comm, product_eq_zero_iff]
      have hsame := compute_divide level.depth n [product ds]
      rw [List.map_cons, List.map_singleton] at hsame
      simp only [hsame, compute_divide, hproduct, product, Int.mul_one]
    · simp only [compute_divide, hperm.mem_iff, product_of_perm hperm]
  · rintro ns v rest rfl hv hwords
    rw [hrun]
    simp only [compute, integers_append divide ns hv rest]
    change level.raise (.notAnInteger .divide v) s' = _
    rw [Level.raise, Fault.worded, Fault.culprit?, Option.bind_some, hwords]
    rfl

/-- A divisor of zero counts although nothing is left to divide, and an argument that is no integer
counts although a divisor of zero stands before it. -/
theorem run_divide_of_late_zero :
    let level := Level.ofDepth false 4
    let s : EvalState := ⟨.empty, []⟩
    divide.run level ⟨[], 0⟩ (.chain [.integer (-7), .integer 2, .integer (-3)] .nil) s =
        .ok (.integer 1) s ∧
      divide.run level ⟨[], 0⟩ (.chain [.integer 1, .integer 2, .integer 0] .nil) s =
        .error .divisionByZero s ∧
      divide.run level ⟨[], 0⟩ (.chain [.integer 1, .integer 0, .boolean true] .nil) s =
        .error (.notAnInteger .divide (.boolean true)) s := by
  intro level s
  have hself (vs : List Value) (hvs : level.evaluateAll ⟨[], 0⟩ vs s = .ok vs s) :
      level.Evaluates ⟨[], 0⟩ (.chain vs .nil) s vs s := by
    rw [Level.Evaluates, Level.items, Value.properItems, Value.items_chain_nil]
    exact hvs
  have hexact :=
    (run_divide (hself [.integer (-7), .integer 2, .integer (-3)] rfl)).1 (-7) [2, -3] rfl
  have hzero := (run_divide (hself [.integer 1, .integer 2, .integer 0] rfl)).1 1 [2, 0] rfl
  have htype := (run_divide (hself [.integer 1, .integer 0, .boolean true] rfl)).2 [1, 0]
    (.boolean true) [] rfl (by simp) rfl
  rw [truncation_div] at hexact
  exact ⟨hexact.1, hzero.1, htype⟩

/-- **Quotient and remainder.** The remainder is congruent to the dividend and lies between zero and
the divisor. Together with the quotient it makes up the dividend if the division is exact or both
numbers have the same sign, and one divisor more if not. -/
theorem run_divide_modulo {n d : Int}
    (h : level.Evaluates env operands s [.integer n, .integer d] s') (hd : d ≠ 0) :
    ∃ q m, divide.run level env operands s = .ok (.integer q) s' ∧
      modulo.run level env operands s = .ok (.integer m) s' ∧
      m ≡ n [ZMOD d] ∧ (0 < d → 0 ≤ m ∧ m < d) ∧ (d < 0 → d < m ∧ m ≤ 0) ∧
      d * q + m = if d ∣ n ∨ n.sign = d.sign then n else n + d := by
  have hdivide : divide.compute level.depth [.integer n, .integer d] =
      .ok (.integer (n.tdiv d)) := by
    have hsingle := compute_divide level.depth n [d]
    rw [List.map_cons, List.map_singleton, if_neg (by simpa using Ne.symm hd)] at hsingle
    rw [hsingle, truncation_div, product, product, Int.mul_one]
  have hmodulo : modulo.compute level.depth [.integer n, .integer d] =
      .ok (.integer (n.fmod d)) := by
    change (do return .integer (← remainder n d) : Except Fault Value) = _
    rw [remainder, if_neg hd]
    rfl
  refine ⟨n.tdiv d, n.fmod d, ?_, ?_, ?_⟩
  · rw [run_of_evaluates (by decide) h, hdivide]
    rfl
  · rw [run_of_evaluates (by decide) h, hmodulo]
    rfl
  · obtain ⟨hmod, hpos, hneg⟩ := fmod_between n hd
    exact ⟨hmod, hpos, hneg, mul_tdiv_add_fmod n hd⟩

/-- For -7 and 2, quotient and remainder make up -5. -/
theorem run_divide_modulo_of_signs :
    let level := Level.ofDepth false 4
    let s : EvalState := ⟨.empty, []⟩
    let operands := Value.chain [.integer (-7), .integer 2] .nil
    ∃ q m, divide.run level ⟨[], 0⟩ operands s = .ok (.integer q) s ∧
      modulo.run level ⟨[], 0⟩ operands s = .ok (.integer m) s ∧
      m ≡ -7 [ZMOD 2] ∧ 0 ≤ m ∧ m < 2 ∧ 2 * q + m = -7 + 2 := by
  intro level s operands
  have hvalues : level.Evaluates ⟨[], 0⟩ operands s [.integer (-7), .integer 2] s := rfl
  obtain ⟨q, m, hq, hm, hmod, hpos, -, hsum⟩ := run_divide_modulo hvalues (by decide)
  exact ⟨q, m, hq, hm, hmod, (hpos (by decide)).1, (hpos (by decide)).2, hsum.trans (by decide)⟩

end Native

end MiniScheme
