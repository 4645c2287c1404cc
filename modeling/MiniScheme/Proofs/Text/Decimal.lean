import Mathlib.Algebra.Group.Nat.Defs
import MiniScheme.Text.Integer

/-!
# Decimal text of integers

Writing an integer and reading the text back gives the integer again, as long as it has few enough
digits; and whatever is read has few enough digits to be written.

## Main statements

* `Text.isSome_toInteger?_iff`: what is read.
* `Text.toInteger?_ofInteger`: what is written is read back.
* `Text.isWritable_of_toInteger?`: what is read can be written.
-/

namespace MiniScheme.Text

/-! ## Digits -/

/-- The first block of digits is the ASCII one. -/
theorem digitValue?_of_isDigit {c : Char} (h : c.isDigit = true) :
    digitValue? c = some (c.toNat - 48) := by
  have hc : 48 ≤ c.toNat ∧ c.toNat ≤ 57 := Char.isDigit_iff_toNat.mp h
  have hfind : digitZeros.find? (fun z => z ≤ c.toNat && c.toNat < z + 10) = some 48 := by
    rw [digitZeros, List.find?_cons_of_pos]
    simp only [Bool.and_eq_true, decide_eq_true_eq]
    omega
  rw [digitValue?, hfind, Option.map_some]

theorem isDigit_of_mem_toDigits {c : Char} {n : Nat} (h : c ∈ Nat.toDigits 10 n) :
    isDigit c = true := by
  rw [isDigit, digitValue?_of_isDigit (Nat.isDigit_of_mem_toDigits (by decide) (by decide) h)]
  rfl

/-- The value of ASCII digits is the one of the standard library. -/
theorem ofDigits_toDigits (n : Nat) : ofDigits (Nat.toDigits 10 n) = n := by
  have hfold : ∀ (cs : List Char) (k : Nat), (∀ c ∈ cs, c.isDigit = true) →
      cs.foldl (fun m c => 10 * m + (digitValue? c).getD 0) k = Nat.ofDigitChars 10 cs k := by
    intro cs
    induction cs with
    | nil => intro k _; rfl
    | cons c cs ih =>
      intro k hcs
      rw [List.foldl_cons, Nat.ofDigitChars_cons,
        ih _ fun d hd => hcs d (List.mem_cons_of_mem _ hd),
        digitValue?_of_isDigit (hcs c List.mem_cons_self)]
      rfl
  rw [ofDigits, hfold _ _ fun c hc => Nat.isDigit_of_mem_toDigits (by decide) (by decide) hc,
    Nat.ofDigitChars_ten_toDigits]

/-- So many digits stand for less than that power of ten. -/
theorem ofDigits_lt (cs : List Char) : ofDigits cs < 10 ^ cs.length := by
  have hfold : ∀ (cs : List Char) (k : Nat),
      cs.foldl (fun m c => 10 * m + (digitValue? c).getD 0) k < (k + 1) * 10 ^ cs.length := by
    intro cs
    induction cs with
    | nil => intro k; simp
    | cons c cs ih =>
      intro k
      have hd : (digitValue? c).getD 0 < 10 := by
        cases hv : digitValue? c with
        | none => simp
        | some d => simpa using digitValue?_lt hv
      calc (c :: cs).foldl (fun m c => 10 * m + (digitValue? c).getD 0) k
          < (10 * k + (digitValue? c).getD 0 + 1) * 10 ^ cs.length := ih _
        _ ≤ (10 * (k + 1)) * 10 ^ cs.length := Nat.mul_le_mul_right _ (by omega)
        _ = (k + 1) * 10 ^ (c :: cs).length := by
          rw [List.length_cons, Nat.pow_succ, Nat.mul_comm 10, Nat.mul_assoc,
            Nat.mul_comm 10]
  simpa [ofDigits] using hfold cs 0

/-! ## Signs -/

theorem splitSign_of_isDigit {c : Char} {cs : List Char} (h : isDigit c = true) :
    splitSign (c :: cs) = (false, c :: cs) := by
  unfold splitSign
  split
  · next heq => cases heq; exact absurd h (by decide)
  · next heq => cases heq; exact absurd h (by decide)
  · rfl

/-- The sign and the digits of a written integer. -/
theorem splitSign_ofInteger (n : Int) :
    splitSign (ofInteger n) = (decide (n < 0), Nat.toDigits 10 n.natAbs) := by
  by_cases hn : n < 0
  · simp [ofInteger, hn, splitSign]
  · have hne : Nat.toDigits 10 n.natAbs ≠ [] := Nat.toDigits_ne_nil
    obtain ⟨c, cs, hcs⟩ := List.exists_cons_of_ne_nil hne
    have hc : isDigit c = true := isDigit_of_mem_toDigits (n := n.natAbs) (by simp [hcs])
    simp only [ofInteger, hn, if_false, decide_false, hcs, splitSign_of_isDigit hc]

theorem isInteger_ofInteger (n : Int) : isInteger (ofInteger n) = true := by
  simp only [isInteger, splitSign_ofInteger, Bool.and_eq_true, List.all_eq_true]
  exact ⟨by simp, fun c hc => isDigit_of_mem_toDigits hc⟩

/-! ## Reading back -/

theorem tooManyDigits_eq : tooManyDigits = 10 ^ maxDigits := by
  unfold tooManyDigits
  generalize maxDigits = k -- the power itself is too large to be computed
  exact Nat.pow_eq

theorem isWritable_iff (n : Int) : isWritable n = true ↔ n.natAbs < 10 ^ maxDigits := by
  rw [isWritable, decide_eq_true_iff, tooManyDigits_eq]

theorem length_toDigits_le_maxDigits {n : Int} (h : isWritable n = true) :
    (Nat.toDigits 10 n.natAbs).length ≤ maxDigits := by
  have hpos : 0 < maxDigits := by decide
  exact (Nat.length_toDigits_le_iff (by decide) hpos).mpr ((isWritable_iff n).mp h)

/-- A text is read as an integer exactly if it is one with few enough digits. -/
theorem isSome_toInteger?_iff {cs : List Char} :
    (toInteger? cs).isSome = true ↔ isInteger cs = true ∧ (splitSign cs).2.length ≤ maxDigits := by
  simp only [toInteger?]
  split
  · next hread => exact ⟨fun _ => hread, fun _ => rfl⟩
  · next hunread => exact ⟨nofun, fun hread => absurd hread hunread⟩

/-- An integer that can be written is read back from its text. -/
theorem toInteger?_ofInteger {n : Int} (h : isWritable n = true) :
    toInteger? (ofInteger n) = some n := by
  simp only [toInteger?, isInteger_ofInteger, splitSign_ofInteger, length_toDigits_le_maxDigits h,
    and_self, if_true, ofDigits_toDigits, decide_eq_true_eq]
  split
  · exact congrArg some (by omega)
  · exact congrArg some (by omega)

/-- An integer that was read can be written. -/
theorem isWritable_of_toInteger? {cs : List Char} {n : Int} (h : toInteger? cs = some n) :
    isWritable n = true := by
  simp only [toInteger?] at h
  split at h
  · next hread =>
    have hn : n.natAbs = ofDigits (splitSign cs).2 := by
      cases h
      split <;> simp
    rw [isWritable_iff, hn]
    exact Nat.lt_of_lt_of_le (ofDigits_lt _) (Nat.pow_le_pow_right (by decide) hread.2)
  · cases h

end MiniScheme.Text
