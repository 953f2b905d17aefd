import FluidCss.Clamp
import FluidCss.Proofs.Number.Rounding

/-!
# Fluid values that cannot be worked out

The line between two sizes is checked before it is printed, so that a slope or an intercept beyond
the doubles is reported. On the way there an operation on numbers may fail itself. It does not if
all the numbers are doubles or small integers, which are doubles too: doubles that differ have a
difference that is not zero, and what is too large for a double becomes an infinity, which the check
finds. A large integer does not become an infinity, and two large integers may become the same
double.

* `Fluid.failsOnly_between`: with numbers that are doubles all failures are reported, and with any
  numbers it is at least no infinity that is rounded.
-/

namespace FluidCss

/-! ## Numbers -/

namespace Number

/-- A number with a value: any integer, and a finite double. -/
def IsReal : Number → Prop
  | .int _ => True
  | .double d => d.isFinite = true

/-- A finite double, or an integer that is one. -/
def IsExact : Number → Prop
  | .int n => n.natAbs ≤ 2 ^ 53
  | .double d => d.isFinite = true

/-- A double, or an integer that is no larger than the difference of two exact ones. -/
def IsSmall : Number → Prop
  | .int n => n.natAbs ≤ 2 ^ 54
  | .double _ => True

theorem IsExact.isReal : ∀ {a : Number}, a.IsExact → a.IsReal
  | .int _, _ => trivial
  | .double _, h => h

theorem IsExact.isSmall : ∀ {a : Number}, a.IsExact → a.IsSmall
  | .int _, h => le_trans h (by norm_num)
  | .double _, _ => trivial

/-- A double, or an integer that is far below the greatest one. -/
def HasDouble : Number → Prop
  | .int n => |(n : Rat)| < 2 ^ (1022 : Int)
  | .double _ => True

theorem abs_intCast_le {n : Int} {k : Nat} (h : n.natAbs ≤ 2 ^ k) :
    |(n : Rat)| ≤ 2 ^ (k : Int) := by
  rw [← Int.cast_abs, Int.abs_eq_natAbs, Int.cast_natCast]
  exact_mod_cast h

theorem IsSmall.hasDouble : ∀ {a : Number}, a.IsSmall → a.HasDouble
  | .int _, h => (abs_intCast_le h).trans_lt (zpow_lt_zpow_right₀ one_lt_two (by norm_num))
  | .double _, _ => trivial

theorem IsExact.hasDouble {a : Number} (h : a.IsExact) : a.HasDouble := h.isSmall.hasDouble

theorem HasDouble.neg : ∀ {a : Number}, a.HasDouble → a.neg.HasDouble
  | .int n, h => by simpa only [Number.neg, HasDouble, Int.cast_neg, abs_neg] using h
  | .double _, _ => trivial

def IsNonzero : Number → Prop
  | .int n => n ≠ 0
  | .double d => d.isZero = false

theorem same_comm (a b : Number) : a.same b = b.same a := by
  unfold same
  cases a.point? <;> cases b.point? <;> simp [eq_comm]

theorem IsExact.exists_double : ∀ {a : Number}, a.IsExact → ∃ d q, a.toDouble = .ok d ∧
    d.value? = some q ∧ a.point? = some (.inner q)
  | .int n, h => by
    have hvalue := Double.value?_ofInt h
    refine ⟨Double.ofInt n, n, ?_, hvalue, rfl⟩
    simp [toDouble, Double.isFinite_of_value? hvalue]
  | .double d, h => by
    obtain ⟨q, hq⟩ := Double.exists_value? h
    exact ⟨d, q, rfl, hq, by simp [point?, hq]⟩

theorem HasDouble.exists_double : ∀ {a : Number}, a.HasDouble → ∃ d, a.toDouble = .ok d ∧
    (a.IsNonzero → d.isZero = false)
  | .int n, h => by
    have habs : |(n : Rat)| < 2 ^ (1022 : Int) := h
    refine ⟨Double.ofInt n, ?_, fun hne => Double.isZero_ofInt hne⟩
    simp [toDouble, Double.ofInt, Double.isFinite_ofRat false habs]
  | .double d, _ => ⟨d, rfl, id⟩

/-- Exact numbers have a difference, and it is zero only if they are the same. -/
theorem sub_of_isExact {a b : Number} (ha : a.IsExact) (hb : b.IsExact) :
    ∃ c, a.sub b = .ok c ∧ c.IsSmall ∧ (a.same b = false → c.IsNonzero) := by
  obtain ⟨x, p, hx, hxp, hap⟩ := ha.exists_double
  obtain ⟨y, q, hy, hyq, hbq⟩ := hb.exists_double
  have hsame : a.same b = false → p ≠ q := by
    simp [same, hap, hbq]
  rcases combine_of_doubles hx hy (· - ·) Double.sub with ⟨m, n, rfl, rfl⟩ | hsub
  · refine ⟨.int (m - n), rfl, ?_, fun hne hzero => hsame hne ?_⟩
    · have hm : m.natAbs ≤ 2 ^ 53 := ha
      have hn : n.natAbs ≤ 2 ^ 53 := hb
      show (m - n).natAbs ≤ 2 ^ 54
      omega
    · obtain rfl := sub_eq_zero.1 hzero
      exact Point.inner.inj (Option.some.inj (hap.symm.trans hbq))
  · exact ⟨_, hsub, trivial, fun hne => Double.isZero_sub hxp hyq (hsame hne)⟩

theorem div_of_hasDouble {a b : Number} (ha : a.HasDouble) (hb : b.HasDouble) (hne : b.IsNonzero) :
    ∃ d, a.div b = .ok (.double d) := by
  obtain ⟨x, hx, -⟩ := ha.exists_double
  obtain ⟨y, hy, hzero⟩ := hb.exists_double
  rcases div_of_doubles hx hy with ⟨m, n, rfl, rfl⟩ | hdiv
  · have hne : n ≠ 0 := hne
    have hfinite : (Double.ofRat ((m < 0) != (n < 0)) (m / n)).isFinite = true := by
      refine Double.isFinite_ofRat _ ?_
      have hone : (1 : Rat) ≤ |(n : Rat)| := by exact_mod_cast Int.one_le_abs hne
      calc |(m / n : Rat)|
        _ = |(m : Rat)| / |(n : Rat)| := abs_div _ _
        _ ≤ |(m : Rat)| := div_le_self (abs_nonneg _) hone
        _ < 2 ^ (1022 : Int) := ha
    refine ⟨Double.ofRat ((m < 0) != (n < 0)) (m / n), ?_⟩
    rw [int_div_of_ne_zero m hne, if_pos hfinite]
  · rw [hzero hne] at hdiv
    exact ⟨_, hdiv⟩

theorem combine_of_hasDouble {a : Number} (h : a.HasDouble) (exact : Int → Int → Int)
    (rounded : Double → Double → Double) (d : Double) :
    (∃ e, combine exact rounded a (.double d) = .ok (.double e)) ∧
      ∃ e, combine exact rounded (.double d) a = .ok (.double e) := by
  obtain ⟨x, hx, -⟩ := h.exists_double
  obtain ⟨hleft, hright⟩ := combine_double hx exact rounded d
  exact ⟨⟨_, hleft⟩, _, hright⟩

end Number

open Number

/-! ## Lengths -/

theorem Double.isFinite_div_sixteen {d : Double} (h : d.isFinite = true) :
    (d.div (Double.ofInt 16)).isFinite = true := by
  obtain ⟨q, hq⟩ := Double.exists_value? h
  have hsixteen : (Double.ofInt 16).value? = some ((16 : Int) : Rat) :=
    Double.value?_ofInt (by norm_num)
  simp only [Double.div, hq, hsixteen]
  refine Double.isFinite_ofRat _ ?_
  calc |q / ((16 : Int) : Rat)|
    _ = |q| / 16 := by rw [abs_div]; norm_num
    _ < 2 ^ 1024 / 16 := div_lt_div_of_pos_right (Double.abs_lt_of_value? hq) (by norm_num)
    _ = 2 ^ (1020 : Int) := by
      rw [div_eq_iff (by norm_num), ← zpow_natCast, show (16 : Rat) = 2 ^ (4 : Int) by norm_num,
        ← zpow_add₀ two_ne_zero]
      norm_num
    _ < 2 ^ (1022 : Int) := zpow_lt_zpow_right₀ one_lt_two (by norm_num)

/-- The sixteenth of a number is a finite double, or too large for one. -/
theorem Length.div_pixelsPerRem : ∀ {a : Number}, a.IsReal →
    (a.div pixelsPerRem = .error .overflow ∧ ¬ a.HasDouble) ∨
      ∃ d, a.div pixelsPerRem = .ok (.double d) ∧ d.isFinite = true
  | .int n, _ => by
    have hdiv : (Number.int n).div pixelsPerRem = _ :=
      int_div_of_ne_zero n (by norm_num : (16 : Int) ≠ 0)
    split at hdiv
    · rename_i hfinite
      exact .inr ⟨_, hdiv, hfinite⟩
    -- With a double for the integer the quotient would have been one.
    · refine .inl ⟨hdiv, fun hdouble => ?_⟩
      have hsixteen : (Number.int 16).IsSmall := by
        show Int.natAbs 16 ≤ 2 ^ 54
        norm_num
      obtain ⟨d, hd⟩ := div_of_hasDouble hdouble hsixteen.hasDouble (by simp [IsNonzero])
      rw [show (Number.int n).div (.int 16) = _ from hdiv] at hd
      cases hd
  | .double d, h => by
    have hsixteen : pixelsPerRem.toDouble = .ok (Double.ofInt 16) := by decide +kernel
    have hzero : (Double.ofInt 16).isZero = false := by decide +kernel
    rcases div_of_doubles (a := .double d) rfl hsixteen with ⟨_, _, hint, -⟩ | hdiv
    · cases hint
    · rw [hzero] at hdiv
      exact .inr ⟨_, hdiv, Double.isFinite_div_sixteen h⟩

theorem roundFixed_of_isFinite {d : Double} (h : d.isFinite = true) :
    ∃ f, (Number.double d).roundFixed = .ok f := by
  obtain ⟨q, hq⟩ := Double.exists_value? h
  exact ⟨.ofRat q, by simp [roundFixed, hq]⟩

theorem Length.failsOnly_rems {a : Number} (h : a.IsReal) :
    FailsOnly (fun c => c = .overflow ∧ ¬ a.HasDouble) (rems a) := by
  rcases div_pixelsPerRem h with ⟨herror, hnot⟩ | ⟨d, hd, hfinite⟩
  · unfold rems
    rw [herror]
    exact .error ⟨rfl, hnot⟩
  · obtain ⟨f, hf⟩ := roundFixed_of_isFinite hfinite
    have hrems : rems a = .ok f := by
      unfold rems
      rw [hd]
      exact hf
    rw [hrems]
    exact .ok f

/-! ## The line -/

namespace Fluid

variable {minSize maxSize minWidth maxWidth : Number}

theorem line_eq_ok {rise run slope product sum : Number} (hrise : maxSize.sub minSize = .ok rise)
    (hrun : maxWidth.sub minWidth = .ok run) (hslope : rise.div run = .ok slope)
    (hproduct : minWidth.neg.mul slope = .ok product) (hsum : product.add minSize = .ok sum) :
    line minSize maxSize minWidth maxWidth = .ok (slope, sum) := by
  simp [line, hrise, hrun, hslope, hproduct, hsum, bind, Except.bind, pure, Except.pure]

/-- There is a line if the differences of the sizes and of the widths can be divided. -/
theorem exists_line {rise run : Number} (hminSize : minSize.HasDouble)
    (hminWidth : minWidth.HasDouble) (hrise : maxSize.sub minSize = .ok rise)
    (hrun : maxWidth.sub minWidth = .ok run) (hriseDouble : rise.HasDouble)
    (hrunDouble : run.HasDouble) (hne : run.IsNonzero) :
    ∃ line', line minSize maxSize minWidth maxWidth = .ok line' := by
  obtain ⟨slope, hslope⟩ := div_of_hasDouble hriseDouble hrunDouble hne
  obtain ⟨product, hproduct⟩ := (combine_of_hasDouble hminWidth.neg (· * ·) Double.mul slope).1
  obtain ⟨sum, hsum⟩ := (combine_of_hasDouble hminSize (· + ·) Double.add product).2
  exact ⟨(.double slope, .double sum), line_eq_ok hrise hrun hslope hproduct hsum⟩

theorem line_of_isExact (hminSize : minSize.IsExact) (hmaxSize : maxSize.IsExact)
    (hminWidth : minWidth.IsExact) (hmaxWidth : maxWidth.IsExact)
    (hwidths : maxWidth.same minWidth = false) :
    ∃ line', line minSize maxSize minWidth maxWidth = .ok line' := by
  obtain ⟨rise, hrise, hriseSmall, -⟩ := sub_of_isExact hmaxSize hminSize
  obtain ⟨run, hrun, hrunSmall, hrunNonzero⟩ := sub_of_isExact hmaxWidth hminWidth
  exact exists_line hminSize.hasDouble hminWidth.hasDouble hrise hrun hriseSmall.hasDouble
    hrunSmall.hasDouble (hrunNonzero hwidths)

/-- A quotient is a double, and so is what is worked out with it. -/
theorem double_of_line {slope intercept : Number}
    (h : line minSize maxSize minWidth maxWidth = .ok (slope, intercept)) :
    ∃ x y, slope = .double x ∧ intercept = .double y := by
  obtain ⟨rise, -, h⟩ := bind_eq_ok.1 h
  obtain ⟨run, -, h⟩ := bind_eq_ok.1 h
  obtain ⟨slope', hslope, h⟩ := bind_eq_ok.1 h
  obtain ⟨product, hproduct, h⟩ := bind_eq_ok.1 h
  obtain ⟨sum, hsum, h⟩ := bind_eq_ok.1 h
  obtain ⟨rfl, rfl⟩ := Prod.mk.inj (pure_eq_ok.1 h)
  obtain ⟨x, rfl⟩ := div_eq_ok hslope
  obtain ⟨z, rfl⟩ := double_of_combine hproduct (.inr ⟨x, rfl⟩)
  obtain ⟨y, rfl⟩ := double_of_combine hsum (.inl ⟨z, rfl⟩)
  exact ⟨x, y, rfl, rfl⟩

/-- Whether a line can be printed has an answer, and what it says of the line. -/
theorem isPrintable_double (x y : Double) : ∃ z, (Number.double x).mul 100 = .ok (.double z) ∧
    isPrintable (.double x) (.double y) = .ok (z.isFinite && y.isFinite) := by
  have hhundred : (Number.int 100).IsSmall := by
    show Int.natAbs 100 ≤ 2 ^ 54
    norm_num
  obtain ⟨z, hz⟩ := (combine_of_hasDouble hhundred.hasDouble (· * ·) Double.mul x).2
  refine ⟨z, hz, ?_⟩
  have hmul : (Number.double x).mul 100 = .ok (.double z) := hz
  cases hfinite : z.isFinite <;>
    simp [isPrintable, hmul, Number.isFinite, toDouble, hfinite, bind, Except.bind, pure,
      Except.pure, Except.map]

/-- What can be printed is rounded to four places, unless a size is too large. -/
theorem failsOnly_rounded {x y : Double} (hmin : minSize.IsReal) (hmax : maxSize.IsReal)
    (h : isPrintable (.double x) (.double y) = .ok true) :
    FailsOnly (fun c => c = .overflow ∧ ¬ (minSize.HasDouble ∧ maxSize.HasDouble))
      (rounded minSize maxSize (.double x) (.double y)) := by
  obtain ⟨z, hz, hprintable⟩ := isPrintable_double x y
  rw [h] at hprintable
  obtain ⟨hzfinite, hyfinite⟩ := Bool.and_eq_true_iff.1 (Except.ok.inj hprintable).symm
  -- The share and the intercept are finite, as they can be printed. Only the sizes may be too
  -- large.
  have hshare : ∃ f, Length.viewportShare (.double x) = .ok f := by
    unfold Length.viewportShare
    rw [hz]
    exact roundFixed_of_isFinite hzfinite
  obtain ⟨share, hshare⟩ := hshare
  refine ((Length.failsOnly_rems hmin).mono fun c hc => ⟨hc.1, fun he => hc.2 he.1⟩).bind
    fun least _ => ?_
  rw [hshare]
  refine ((Length.failsOnly_rems (a := .double y) hyfinite).mono
    fun c hc => absurd trivial hc.2).bind fun offset _ => ?_
  exact ((Length.failsOnly_rems hmax).mono fun c hc => ⟨hc.1, fun he => hc.2 he.2⟩).bind
    fun greatest _ => .ok _

/-! ## Failures -/

/-- A failure is reported as an error of the text, or it is one of some failures of operations. -/
def Reports (P : ArithmeticError → Prop) (e : Error) : Prop :=
  e.isTagged = true ∨ ∃ c, e = .arithmetic c ∧ P c

theorem failsOnly_ofArithmetic {α : Type} {P : ArithmeticError → Prop}
    {x : Except ArithmeticError α} (h : FailsOnly P x) :
    FailsOnly (Reports P) (Error.ofArithmetic x) := by
  cases x with
  | error c => exact .error (.inr ⟨c, rfl, h c rfl⟩)
  | ok a => exact .ok a

theorem failsOnly_checkOrder {P : ArithmeticError → Prop} (quantity : Text)
    (least greatest : Number) : FailsOnly (Reports P) (checkOrder quantity least greatest) := by
  unfold checkOrder
  split
  · exact .error (.inl rfl)
  · exact .ok ()

theorem ge_of_checkOrder {quantity : Text} {least greatest : Number} {u : Unit}
    (h : checkOrder quantity least greatest = .ok u) : least.ge greatest = false := by
  unfold checkOrder at h
  split at h
  · cases h
  · rename_i hge
    exact Bool.eq_false_iff.2 hge

theorem not_same_of_checkOrder {quantity : Text} {least greatest : Number} {u : Unit}
    (h : checkOrder quantity least greatest = .ok u) : greatest.same least = false := by
  have hge := ge_of_checkOrder h
  rw [ge, Bool.or_eq_false_iff] at hge
  rw [same_comm]
  exact hge.2

/-- The four numbers of a fluid value are doubles or small integers. -/
def AreExact (minSize maxSize minWidth maxWidth : Number) : Prop :=
  minSize.IsExact ∧ maxSize.IsExact ∧ minWidth.IsExact ∧ maxWidth.IsExact

/-- Between widths that differ there is a line, unless a number is too large. -/
theorem failsOnly_line (hwidths : maxWidth.same minWidth = false) :
    FailsOnly (fun c => c ≠ .invalidOperation ∧ ¬ AreExact minSize maxSize minWidth maxWidth)
      (line minSize maxSize minWidth maxWidth) := by
  by_cases hexact : AreExact minSize maxSize minWidth maxWidth
  · obtain ⟨line', hline⟩ := line_of_isExact hexact.1 hexact.2.1 hexact.2.2.1 hexact.2.2.2 hwidths
    rw [hline]
    exact .ok line'
  · refine FailsOnly.mono ?_ fun c hc => ⟨hc, hexact⟩
    refine (failsOnly_combine _ _ _ _).bind fun rise _ => ?_
    refine (failsOnly_combine _ _ _ _).bind fun run _ => ?_
    refine (failsOnly_div _ _).bind fun slope _ => ?_
    refine (failsOnly_combine _ _ _ _).bind fun product _ => ?_
    exact (failsOnly_combine _ _ _ _).bind fun intercept _ => .ok _

/-- **A fluid value between sizes that are numbers is reported, or not worked out since one of the
four numbers is too large. It is not an infinity that is rounded then.** -/
theorem failsOnly_between (hmin : minSize.IsReal) (hmax : maxSize.IsReal) :
    FailsOnly (Reports fun c =>
        c ≠ .invalidOperation ∧ ¬ AreExact minSize maxSize minWidth maxWidth)
      (between minSize maxSize minWidth maxWidth) := by
  unfold between
  by_cases hsame : minSize.same maxSize = true
  · simp only [hsame, if_true]
    -- The same size twice is a single length.
    have hrems := (Length.failsOnly_rems hmin).mono
      fun (c : ArithmeticError) hc => show c ≠ .invalidOperation ∧
        ¬ AreExact minSize maxSize minWidth maxWidth from
          ⟨by simp [hc.1], fun he => hc.2 he.1.hasDouble⟩
    exact (failsOnly_ofArithmetic hrems).bind fun _ _ => .ok _
  simp only [hsame, Bool.false_eq_true, if_false]
  refine (failsOnly_checkOrder _ _ _).bind fun _ _ => ?_
  refine (failsOnly_checkOrder _ _ _).bind fun _ hwidths => ?_
  -- The second check keeps the widths apart, so the line is there or too large.
  have hline := @failsOnly_line minSize maxSize _ _ (not_same_of_checkOrder hwidths)
  refine (failsOnly_ofArithmetic hline).bind fun both hboth => ?_
  obtain ⟨slope, intercept⟩ := both
  obtain ⟨x, y, rfl, rfl⟩ := double_of_line (Error.ofArithmetic_eq_ok.1 hboth)
  obtain ⟨z, -, hprintable⟩ := isPrintable_double x y
  refine FailsOnly.bind (x := Error.ofArithmetic _) ?_ fun printable hp => ?_
  · rw [hprintable]
    exact .ok _
  · rw [Error.ofArithmetic_eq_ok] at hp
    cases printable with
    | true =>
      exact failsOnly_ofArithmetic <| (failsOnly_rounded hmin hmax hp).mono
        fun c hc => ⟨by simp [hc.1], fun he => hc.2 ⟨he.1.hasDouble, he.2.1.hasDouble⟩⟩
    | false => exact .error (.inl rfl)

end Fluid

end FluidCss
