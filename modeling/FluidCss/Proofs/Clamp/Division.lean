import FluidCss.Proofs.Clamp.Order

/-!
# Widths that become the same double

A fluid value divides the difference of its sizes by the difference of its widths. Widths that pass
the check of their order are different numbers, and integers or doubles that are different have a
difference that is not zero. An integer that meets a double is rounded first, however, and may then
be the very double that it was told from.

**Theorem (`fluidText_divides_by_zero_iff`).** With finite doubles and integers below ten to the 300
this is the one way in which an operation on numbers fails: the result is a text, or an order or a
line is reported, unless the sizes and the widths are in order and the widths coincide as doubles.

All numbers up to the slope have a double (`Number.HasDouble`), so only the divisor is in question;
what is worked out with the slope is a double or an infinity, which the check of the line finds.
-/

namespace FluidCss

namespace Number

/-- A finite double, or an integer below ten to the 300. -/
def IsModerate : Number → Prop
  | .int n => n.natAbs < 10 ^ 300
  | .double d => d.isFinite = true

/-- An integer and a double, and the double next to the integer has the value of the other. -/
inductive Coincide : Number → Number → Prop
  | intDouble {n : Int} {d : Double} (h : (Number.double (.ofInt n)).same (.double d)) :
    Coincide (.int n) (.double d)
  | doubleInt {n : Int} {d : Double} (h : (Number.double (.ofInt n)).same (.double d)) :
    Coincide (.double d) (.int n)

theorem Coincide.symm {a b : Number} (h : Coincide a b) : Coincide b a := by
  cases h with
  | intDouble h => exact .doubleInt h
  | doubleInt h => exact .intDouble h

theorem IsModerate.isReal : ∀ {a : Number}, a.IsModerate → a.IsReal
  | .int _, _ => trivial
  | .double _, h => h

theorem IsModerate.hasDouble : ∀ {a : Number}, a.IsModerate → a.HasDouble
  | .int _, h => (abs_intCast_lt h).trans (zpow_lt_zpow_right₀ one_lt_two (by norm_num))
  | .double _, _ => trivial

/-- A moderate integer has a finite double next to it. -/
theorem IsModerate.exists_ofInt {n : Int} (h : (Number.int n).IsModerate) :
    (Number.int n).toDouble = .ok (Double.ofInt n) ∧ ∃ p, (Double.ofInt n).value? = some p := by
  have hfinite : (Double.ofInt n).isFinite = true := Double.isFinite_ofRat false h.hasDouble
  exact ⟨by simp [toDouble, hfinite], Double.exists_value? hfinite⟩

theorem same_double_iff {x y : Double} {p q : Rat} (hx : x.value? = some p)
    (hy : y.value? = some q) : (Number.double x).same (.double y) ↔ p = q := by
  simp [same, point?, hx, hy]

/-! ## Differences -/

section

variable {n : Int} {d : Double}

/-- An integer becomes a double where it meets one. -/
theorem int_sub_double (hn : (Number.int n).IsModerate) (hd : d.isFinite = true) :
    ∃ e, (Number.int n).sub (.double d) = .ok (.double e) ∧
      (e.isZero = true ↔ (Number.double (.ofInt n)).same (.double d)) := by
  obtain ⟨hdouble, p, hp⟩ := hn.exists_ofInt
  obtain ⟨q, hq⟩ := Double.exists_value? hd
  refine ⟨_, (combine_double hdouble (· - ·) Double.sub d).1, ?_⟩
  rw [Double.isZero_sub_iff hp hq, same_double_iff hp hq]

theorem double_sub_int (hn : (Number.int n).IsModerate) (hd : d.isFinite = true) :
    ∃ e, (Number.double d).sub (.int n) = .ok (.double e) ∧
      (e.isZero = true ↔ (Number.double (.ofInt n)).same (.double d)) := by
  obtain ⟨hdouble, p, hp⟩ := hn.exists_ofInt
  obtain ⟨q, hq⟩ := Double.exists_value? hd
  refine ⟨_, (combine_double hdouble (· - ·) Double.sub d).2, ?_⟩
  rw [Double.isZero_sub_iff hq hp, same_double_iff hp hq, eq_comm]

end

/-- Numbers that coincide have a difference that is a zero. -/
theorem sub_of_coincide {a b : Number} (ha : a.IsModerate) (hb : b.IsModerate) (h : Coincide a b) :
    ∃ d, a.sub b = .ok (.double d) ∧ d.isZero = true := by
  cases h with
  | intDouble h =>
    obtain ⟨e, hsub, hzero⟩ := int_sub_double ha hb
    exact ⟨e, hsub, hzero.2 h⟩
  | doubleInt h =>
    obtain ⟨e, hsub, hzero⟩ := double_sub_int hb ha
    exact ⟨e, hsub, hzero.2 h⟩

/-- Moderate numbers have a difference, and it is zero only if they are the same or coincide. -/
theorem sub_of_isModerate {a b : Number} (ha : a.IsModerate) (hb : b.IsModerate) :
    ∃ c, a.sub b = .ok c ∧ c.HasDouble ∧ (a.same b = false → ¬ Coincide a b → c.IsNonzero) := by
  cases a with
  | int m =>
    cases b with
    | int n =>
      refine ⟨.int (m - n), rfl, ?_, fun hne _ hzero => ?_⟩
      -- Two integers are subtracted exactly, and the bound has room for both.
      · show |((m - n : Int) : Rat)| < 2 ^ (1022 : Int)
        calc |((m - n : Int) : Rat)|
          _ = |(m : Rat) - n| := by rw [Int.cast_sub]
          _ ≤ |(m : Rat)| + |(n : Rat)| := abs_sub _ _
          _ < 2 ^ (1000 : Int) + 2 ^ (1000 : Int) :=
            add_lt_add (abs_intCast_lt ha) (abs_intCast_lt hb)
          _ = 2 ^ (1001 : Int) := by
            rw [← two_mul, ← zpow_one_add₀ two_ne_zero]
            norm_num
          _ < 2 ^ (1022 : Int) := zpow_lt_zpow_right₀ one_lt_two (by norm_num)
      · obtain rfl := sub_eq_zero.1 hzero
        simp [same, point?] at hne
    | double d =>
      -- The integer becomes a double first, which is where numbers can coincide.
      obtain ⟨e, hsub, hzero⟩ := int_sub_double ha hb
      refine ⟨_, hsub, trivial, fun _ hapart => ?_⟩
      exact Bool.eq_false_iff.2 fun he => hapart (.intDouble (hzero.1 he))
  | double x =>
    cases b with
    | int n =>
      obtain ⟨e, hsub, hzero⟩ := double_sub_int hb ha
      refine ⟨_, hsub, trivial, fun _ hapart => ?_⟩
      exact Bool.eq_false_iff.2 fun he => hapart (.doubleInt (hzero.1 he))
    | double y =>
      -- Different doubles never have a difference of zero.
      refine ⟨.double (x.sub y), rfl, trivial, fun hne _ => ?_⟩
      obtain ⟨p, hp⟩ := Double.exists_value? ha
      obtain ⟨q, hq⟩ := Double.exists_value? hb
      refine Double.isZero_sub hp hq fun heq => ?_
      rw [(same_double_iff hp hq).2 heq] at hne
      cases hne

theorem div_of_isZero {a : Number} {d : Double} (ha : a.HasDouble) (hd : d.isZero = true) :
    a.div (.double d) = .error .divisionByZero := by
  obtain ⟨x, hx, -⟩ := ha.exists_double
  rcases div_of_doubles hx (b := .double d) rfl with ⟨_, _, -, hint⟩ | hdiv
  · cases hint
  · rw [hdiv, if_pos hd]

end Number

open Number

namespace Fluid

variable {minSize maxSize minWidth maxWidth : Number}

/-! ## The line -/

theorem line_of_coincide (hminSize : minSize.IsModerate) (hmaxSize : maxSize.IsModerate)
    (hminWidth : minWidth.IsModerate) (hmaxWidth : maxWidth.IsModerate)
    (h : Coincide minWidth maxWidth) :
    line minSize maxSize minWidth maxWidth = .error .divisionByZero := by
  obtain ⟨rise, hrise, hriseDouble, -⟩ := sub_of_isModerate hmaxSize hminSize
  obtain ⟨run, hrun, hzero⟩ := sub_of_coincide hmaxWidth hminWidth h.symm
  simp [line, hrise, hrun, div_of_isZero hriseDouble hzero, bind, Except.bind]

theorem line_of_isModerate (hminSize : minSize.IsModerate) (hmaxSize : maxSize.IsModerate)
    (hminWidth : minWidth.IsModerate) (hmaxWidth : maxWidth.IsModerate)
    (hne : maxWidth.same minWidth = false) (h : ¬ Coincide minWidth maxWidth) :
    ∃ line', line minSize maxSize minWidth maxWidth = .ok line' := by
  obtain ⟨rise, hrise, hriseDouble, -⟩ := sub_of_isModerate hmaxSize hminSize
  obtain ⟨run, hrun, hrunDouble, hrunNonzero⟩ := sub_of_isModerate hmaxWidth hminWidth
  exact exists_line hminSize.hasDouble hminWidth.hasDouble hrise hrun hriseDouble hrunDouble
    (hrunNonzero hne fun hback => h hback.symm)

/-! ## Fluid values -/

theorem exists_rems {a : Number} (h : a.IsModerate) : ∃ size, Length.rems a = .ok size := by
  cases hrems : Length.rems a with
  | ok size => exact ⟨size, rfl⟩
  | error c => exact absurd h.hasDouble (Length.failsOnly_rems h.isReal c hrems).2

/-- With a line there is a fluid value, or it is reported that the line cannot be printed. -/
theorem printed_of_line {slope intercept : Number} (hminSize : minSize.IsModerate)
    (hmaxSize : maxSize.IsModerate)
    (hline : line minSize maxSize minWidth maxWidth = .ok (slope, intercept)) :
    isPrintable slope intercept = .ok false ∨
      isPrintable slope intercept = .ok true ∧
        ∃ fluid, rounded minSize maxSize slope intercept = .ok fluid := by
  obtain ⟨x, y, rfl, rfl⟩ := double_of_line hline
  obtain ⟨z, -, hprintable⟩ := isPrintable_double x y
  cases hfinite : z.isFinite && y.isFinite with
  | false => exact .inl (hprintable.trans (by rw [hfinite]))
  | true =>
    rw [hfinite] at hprintable
    refine .inr ⟨hprintable, ?_⟩
    have hfails := failsOnly_rounded hminSize.isReal hmaxSize.isReal hprintable
    cases hrounded : rounded minSize maxSize (.double x) (.double y) with
    | ok fluid => exact ⟨fluid, rfl⟩
    | error c => exact absurd ⟨hminSize.hasDouble, hmaxSize.hasDouble⟩ (hfails c hrounded).2

/-- An error that a fluid value is meant to give. -/
def IsReported (e : Error) : Prop := e.kind = .range ∨ e.kind = .configuration

theorem failsOnly_checkOrder_reported (quantity : Text) (least greatest : Number) :
    FailsOnly IsReported (checkOrder quantity least greatest) := by
  unfold checkOrder
  split
  · exact .error (.inl rfl)
  · exact .ok ()

/-- Where the widths do not coincide, failures are reported. -/
theorem between_of_apart (hminSize : minSize.IsModerate) (hmaxSize : maxSize.IsModerate)
    (hminWidth : minWidth.IsModerate) (hmaxWidth : maxWidth.IsModerate)
    (h : ¬ (minSize.lt maxSize ∧ minWidth.lt maxWidth ∧ Coincide minWidth maxWidth)) :
    FailsOnly IsReported (between minSize maxSize minWidth maxWidth) := by
  unfold between
  by_cases hsame : minSize.same maxSize = true
  · obtain ⟨size, hsize⟩ := exists_rems hminSize
    simp only [hsame, if_true, hsize]
    exact .ok _
  simp only [hsame, Bool.false_eq_true, if_false]
  refine (failsOnly_checkOrder_reported _ _ _).bind fun _ hsizes => ?_
  refine (failsOnly_checkOrder_reported _ _ _).bind fun _ hwidths => ?_
  have hsizes := lt_of_checkOrder hminSize.isReal hmaxSize.isReal hsizes
  have hwidths := lt_of_checkOrder hminWidth.isReal hmaxWidth.isReal hwidths
  -- Both checks have passed, so the widths are what is left to keep them apart.
  have hapart : ¬ Coincide minWidth maxWidth := fun hc => h ⟨hsizes, hwidths, hc⟩
  have hne := same_comm minWidth maxWidth ▸ not_same_of_lt hminWidth.isReal hmaxWidth.isReal hwidths
  obtain ⟨⟨slope, intercept⟩, hline⟩ :=
    line_of_isModerate hminSize hmaxSize hminWidth hmaxWidth hne hapart
  rw [hline]
  -- The line exists; it is printed, or reported as out of range.
  rcases printed_of_line hminSize hmaxSize hline with hprintable | ⟨hprintable, fluid, hfluid⟩
  · show FailsOnly IsReported (Error.ofArithmetic (isPrintable slope intercept) >>= _)
    rw [hprintable]
    exact .error (.inr rfl)
  · show FailsOnly IsReported (Error.ofArithmetic (isPrintable slope intercept) >>= _)
    rw [hprintable]
    show FailsOnly IsReported (Error.ofArithmetic (rounded minSize maxSize slope intercept))
    rw [hfluid]
    exact .ok _

/-- Where they do, and sizes and widths are in order, the division fails. -/
theorem between_of_coincide (hminSize : minSize.IsModerate) (hmaxSize : maxSize.IsModerate)
    (hminWidth : minWidth.IsModerate) (hmaxWidth : maxWidth.IsModerate)
    (hsizes : minSize.lt maxSize = true) (hwidths : minWidth.lt maxWidth = true)
    (h : Coincide minWidth maxWidth) :
    between minSize maxSize minWidth maxWidth = .error (.arithmetic .divisionByZero) := by
  unfold between
  simp [not_same_of_lt hminSize.isReal hmaxSize.isReal hsizes,
    checkOrder_of_lt hminSize.isReal hmaxSize.isReal hsizes,
    checkOrder_of_lt hminWidth.isReal hmaxWidth.isReal hwidths,
    line_of_coincide hminSize hmaxSize hminWidth hmaxWidth h, bind, Except.bind, Error.ofArithmetic]

end Fluid

open Fluid

/-- **A fluid value is worked out or it is reported why not, unless the widths coincide**: it
divides by zero if sizes and widths are in order and the widths are the same double, and only then.
-/
theorem fluidText_divides_by_zero_iff {minSize maxSize minWidth maxWidth : Number}
    (h : ∀ n ∈ [minSize, maxSize, minWidth, maxWidth], n.IsModerate) :
    (fluidText minSize maxSize minWidth maxWidth = .error (.arithmetic .divisionByZero) ↔
      minSize.lt maxSize ∧ minWidth.lt maxWidth ∧ Coincide minWidth maxWidth) ∧
    ∀ e, fluidText minSize maxSize minWidth maxWidth = .error e →
      e.kind = .range ∨ e.kind = .configuration ∨ e = .arithmetic .divisionByZero := by
  simp only [List.forall_mem_cons] at h
  obtain ⟨hminSize, hmaxSize, hminWidth, hmaxWidth, -⟩ := h
  -- Only widths that coincide behind both checks reach the division by zero.
  by_cases hall : minSize.lt maxSize ∧ minWidth.lt maxWidth ∧ Coincide minWidth maxWidth
  · obtain ⟨hsizes, hwidths, hcoincide⟩ := id hall
    have hbetween :=
      between_of_coincide hminSize hmaxSize hminWidth hmaxWidth hsizes hwidths hcoincide
    rw [fluidText, hbetween]
    exact ⟨iff_of_true rfl hall, fun e he => .inr (.inr (Except.error.inj he).symm)⟩
  · have hreported := between_of_apart hminSize hmaxSize hminWidth hmaxWidth hall
    rw [fluidText]
    cases hbetween : between minSize maxSize minWidth maxWidth with
    | ok fluid =>
      have hok : ∀ e, Except.map Fluid.text (.ok fluid : Except Error Fluid) ≠ .error e := by
        rintro e ⟨⟩
      exact ⟨iff_of_false (hok _) hall, fun e he => absurd he (hok e)⟩
    | error e =>
      have he := hreported e hbetween
      refine ⟨iff_of_false (fun heq => ?_) hall, fun e' he' => ?_⟩
      -- A reported failure is no division by zero.
      · rw [Except.error.inj heq] at he
        rcases he with he | he <;> cases he
      · rw [← Except.error.inj he']
        exact he.imp_right .inl

def doubleWidth : Number := .double (Double.ofInt 9007199254740992)

/-- A greater width that is an integer, to which the same double is next. -/
def nextWidth : Number := 9007199254740993

theorem isModerate_widths : ∀ n ∈ [1, 2, doubleWidth, nextWidth], n.IsModerate := by
  simp only [List.forall_mem_cons]
  refine ⟨?_, ?_, rfl, ?_, by simp⟩ <;> show Int.natAbs _ < 10 ^ 300 <;> decide +kernel

theorem fluidText_divides_by_zero_iff_nextWidth :
    (∀ n ∈ [1, 2, doubleWidth, nextWidth], n.IsModerate) ∧ doubleWidth.lt nextWidth ∧
      (fluidText 1 2 doubleWidth nextWidth = .error (.arithmetic .divisionByZero) ↔
        (1 : Number).lt 2 ∧ doubleWidth.lt nextWidth ∧ Coincide doubleWidth nextWidth) ∧
      ∀ e, fluidText 1 2 doubleWidth nextWidth = .error e →
        e.kind = .range ∨ e.kind = .configuration ∨ e = .arithmetic .divisionByZero :=
  ⟨isModerate_widths, by decide +kernel, fluidText_divides_by_zero_iff isModerate_widths⟩

/-- **Not every failure between moderate numbers is reported.** -/
theorem division_escapes : ¬ ∀ minSize maxSize minWidth maxWidth : Number,
    (∀ n ∈ [minSize, maxSize, minWidth, maxWidth], n.IsModerate) →
    ∀ e, fluidText minSize maxSize minWidth maxWidth = .error e →
      e.kind = .range ∨ e.kind = .configuration := by
  intro h
  have hfails : fluidText 1 2 doubleWidth nextWidth = .error (.arithmetic .divisionByZero) := by
    decide +kernel
  rcases h _ _ _ _ isModerate_widths _ hfails with hkind | hkind <;> cases hkind

end FluidCss
