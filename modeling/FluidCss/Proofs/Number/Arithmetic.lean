import FluidCss.Number.Basic
import FluidCss.Proofs.Result

/-!
# Arithmetic on numbers of two kinds

An operation works on two integers, or else on the doubles of its operands, and a quotient is a
double in either case. What holds of the two ways holds of the operation, so only the lemmas here
take the numbers apart.

* `Number.combine_eq`, `Number.div_eq`: the two ways.
* `Number.combine_cases`, `Number.div_cases`: how a result came about.
* `Number.failsOnly_combine`, `Number.failsOnly_div`: what an operation fails with.
-/

namespace FluidCss.Number

variable {a b c : Number} {x y : Double} {exact : Int → Int → Int}
  {rounded : Double → Double → Double}

/-! ## Sums, differences and products -/

/-- An operation is exact on two integers, and else works on doubles. -/
theorem combine_eq (exact : Int → Int → Int) (rounded : Double → Double → Double) (a b : Number) :
    (∃ m n, a = .int m ∧ b = .int n ∧ combine exact rounded a b = .ok (.int (exact m n))) ∨
      combine exact rounded a b = do return .double (rounded (← a.toDouble) (← b.toDouble)) := by
  cases a with
  | double d => exact .inr rfl
  | int m =>
    cases b with
    | double d => exact .inr rfl
    | int n => exact .inl ⟨m, n, rfl, rfl, rfl⟩

/-- Unless both numbers are integers, an operation on them is that on doubles. -/
theorem combine_of_doubles (hx : a.toDouble = .ok x) (hy : b.toDouble = .ok y)
    (exact : Int → Int → Int) (rounded : Double → Double → Double) :
    (∃ m n, a = .int m ∧ b = .int n) ∨ combine exact rounded a b = .ok (.double (rounded x y)) := by
  rcases combine_eq exact rounded a b with ⟨m, n, ha, hb, -⟩ | h
  · exact .inl ⟨m, n, ha, hb⟩
  · rw [hx, hy] at h
    exact .inr h

theorem combine_double (hx : a.toDouble = .ok x) (exact : Int → Int → Int)
    (rounded : Double → Double → Double) (d : Double) :
    combine exact rounded a (.double d) = .ok (.double (rounded x d)) ∧
      combine exact rounded (.double d) a = .ok (.double (rounded d x)) := by
  constructor
  · rcases combine_of_doubles hx (b := .double d) rfl exact rounded with ⟨_, _, -, hint⟩ | hcombine
    · cases hint
    · exact hcombine
  · rcases combine_of_doubles (a := .double d) rfl hx exact rounded with ⟨_, _, hint, -⟩ | hcombine
    · cases hint
    · exact hcombine

/-- An operation is the exact one on two integers, or the rounded one on two doubles. -/
theorem combine_cases (h : combine exact rounded a b = .ok c) :
    (∃ m n, a = .int m ∧ b = .int n ∧ c = .int (exact m n)) ∨
      ∃ x y, a.toDouble = .ok x ∧ b.toDouble = .ok y ∧ c = .double (rounded x y) := by
  rcases combine_eq exact rounded a b with ⟨m, n, ha, hb, hint⟩ | hdoubles
  · exact .inl ⟨m, n, ha, hb, Except.ok.inj (h.symm.trans hint)⟩
  · obtain ⟨x, hx, h⟩ := bind_eq_ok.1 (hdoubles.symm.trans h)
    obtain ⟨y, hy, h⟩ := bind_eq_ok.1 h
    exact .inr ⟨x, y, hx, hy, (pure_eq_ok.1 h).symm⟩

theorem double_of_combine (h : combine exact rounded a b = .ok c)
    (hdouble : (∃ d, a = .double d) ∨ ∃ d, b = .double d) : ∃ d, c = .double d := by
  rcases combine_cases h with ⟨m, n, rfl, rfl, -⟩ | ⟨x, y, -, -, hc⟩
  · rcases hdouble with ⟨d, hd⟩ | ⟨d, hd⟩ <;> cases hd
  · exact ⟨_, hc⟩

/-! ## Quotients -/

theorem int_div_of_ne_zero (m : Int) {n : Int} (hn : n ≠ 0) :
    (Number.int m).div (.int n) =
      if (Double.ofRat ((m < 0) != (n < 0)) (m / n)).isFinite
      then .ok (.double (Double.ofRat ((m < 0) != (n < 0)) (m / n))) else .error .overflow := by
  simp only [div, hn, if_false]

/-- Unless both numbers are integers, their quotient is that of doubles. -/
theorem div_eq (a b : Number) :
    (∃ m n, a = .int m ∧ b = .int n) ∨ a.div b = (a.toDouble >>= fun x => b.toDouble >>= fun y =>
      if y.isZero then .error .divisionByZero else .ok (.double (x.div y))) := by
  have hdoubles : (do
      let x ← a.toDouble
      let y ← b.toDouble
      if y.isZero then throw ArithmeticError.divisionByZero
      return Number.double (x.div y)) = (a.toDouble >>= fun x => b.toDouble >>= fun y =>
        if y.isZero then .error .divisionByZero else .ok (.double (x.div y))) := by
    refine bind_congr fun x => bind_congr fun y => ?_
    cases y.isZero <;> rfl
  cases a with
  | double d => exact .inr hdoubles
  | int m =>
    cases b with
    | double d => exact .inr hdoubles
    | int n => exact .inl ⟨m, n, rfl, rfl⟩

theorem div_of_doubles (hx : a.toDouble = .ok x) (hy : b.toDouble = .ok y) :
    (∃ m n, a = .int m ∧ b = .int n) ∨
      a.div b = if y.isZero then .error .divisionByZero else .ok (.double (x.div y)) := by
  rcases div_eq a b with hint | h
  · exact .inl hint
  · rw [hx, hy] at h
    exact .inr h

theorem div_cases (h : a.div b = .ok c) :
    (∃ m n s, a = .int m ∧ b = .int n ∧ c = .double (Double.ofRat s (m / n))) ∨
      ∃ x y, a.toDouble = .ok x ∧ b.toDouble = .ok y ∧ c = .double (x.div y) := by
  rcases div_eq a b with ⟨m, n, rfl, rfl⟩ | hdoubles
  · by_cases hn : n = 0
    · rw [hn] at h
      cases h
    · rw [int_div_of_ne_zero m hn] at h
      split at h
      · exact .inl ⟨m, n, _, rfl, rfl, (Except.ok.inj h).symm⟩
      · cases h
  · obtain ⟨x, hx, h⟩ := bind_eq_ok.1 (hdoubles.symm.trans h)
    obtain ⟨y, hy, h⟩ := bind_eq_ok.1 h
    split at h
    · cases h
    · exact .inr ⟨x, y, hx, hy, (Except.ok.inj h).symm⟩

theorem div_eq_ok (h : a.div b = .ok c) : ∃ d, c = .double d := by
  rcases div_cases h with ⟨m, n, s, -, -, hc⟩ | ⟨x, y, -, -, hc⟩
  · exact ⟨_, hc⟩
  · exact ⟨_, hc⟩

/-! ## Failures -/

theorem failsOnly_toDouble (a : Number) : FailsOnly (· ≠ .invalidOperation) a.toDouble := by
  cases a with
  | double d => exact .ok d
  | int n =>
    unfold toDouble
    by_cases h : (Double.ofInt n).isFinite = true
    · simp only [h, if_true]
      exact .ok _
    · simp only [h, Bool.false_eq_true, if_false]
      exact .error (by simp)

theorem failsOnly_combine (exact : Int → Int → Int) (rounded : Double → Double → Double)
    (a b : Number) : FailsOnly (· ≠ .invalidOperation) (combine exact rounded a b) := by
  rcases combine_eq exact rounded a b with ⟨m, n, -, -, h⟩ | h <;> rw [h]
  · exact .ok _
  · exact (failsOnly_toDouble a).bind fun _ _ => (failsOnly_toDouble b).bind fun _ _ => .ok _

theorem failsOnly_div (a b : Number) : FailsOnly (· ≠ .invalidOperation) (a.div b) := by
  rcases div_eq a b with ⟨m, n, rfl, rfl⟩ | h
  · by_cases hn : n = 0
    · rw [hn]
      exact .error (by simp)
    · rw [int_div_of_ne_zero m hn]
      split
      · exact .ok _
      · exact .error (by simp)
  · rw [h]
    refine (failsOnly_toDouble a).bind fun x _ => (failsOnly_toDouble b).bind fun y _ => ?_
    split
    · exact .error (by simp)
    · exact .ok _

end FluidCss.Number
