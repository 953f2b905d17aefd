import FluidCss.Error
import Mathlib.Data.List.Forall2

/-!
# Computations that may fail

How a computation that gives a result came to it.
-/

namespace FluidCss

variable {ε σ α β γ : Type}

/-- A chain gives a result if its first part does and what is done with that does. -/
theorem bind_eq_ok {x : Except ε α} {f : α → Except ε β} {b : β} :
    x >>= f = .ok b ↔ ∃ a, x = .ok a ∧ f a = .ok b := by
  cases x with
  | error e => simp [bind, Except.bind]
  | ok a => simp [bind, Except.bind]

theorem map_eq_ok {x : Except ε α} {f : α → β} {b : β} :
    x.map f = .ok b ↔ ∃ a, x = .ok a ∧ f a = b := by
  cases x with
  | error e => simp [Except.map]
  | ok a => simp [Except.map]

theorem pure_eq_ok {a b : α} : (pure a : Except ε α) = .ok b ↔ a = b := by
  simp [pure, Except.pure]

theorem Error.ofArithmetic_eq_ok {x : Except ArithmeticError α} {a : α} :
    Error.ofArithmetic x = .ok a ↔ x = .ok a := by
  cases x with
  | error e => simp [Error.ofArithmetic]
  | ok b => simp [Error.ofArithmetic]

/-! ## Two computations -/

/-- Two computations fail with the same error, or their results are in a relation. -/
inductive Matched (R : α → β → Prop) : Except ε α → Except ε β → Prop
  | error (e : ε) : Matched R (.error e) (.error e)
  | ok {a : α} {b : β} (h : R a b) : Matched R (.ok a) (.ok b)

theorem Matched.of_eq {R : α → α → Prop} (hR : ∀ a, R a a) (x : Except ε α) : Matched R x x := by
  cases x with
  | error e => exact .error e
  | ok a => exact .ok (hR a)

/-- Chains that begin alike are matched if they go on so. -/
theorem Matched.bind_same {α' β' : Type} {S : α' → β' → Prop} {x : Except ε α}
    {f : α → Except ε α'} {g : α → Except ε β'} (h : ∀ a, x = .ok a → Matched S (f a) (g a)) :
    Matched S (x >>= f) (x >>= g) := by
  cases x with
  | error e => exact .error e
  | ok a => exact h a rfl

theorem Matched.bind {α' β' : Type} {R : α → β → Prop} {S : α' → β' → Prop} {x : Except ε α}
    {y : Except ε β} {f : α → Except ε α'} {g : β → Except ε β'} (h : Matched R x y)
    (hfg : ∀ a b, R a b → Matched S (f a) (g b)) : Matched S (x >>= f) (y >>= g) := by
  cases h with
  | error e => exact .error e
  | ok hR => exact hfg _ _ hR

/-! ## Reports -/

section

variable {δ : Type} {report : ε → δ}

theorem mapError_bind_congr {x y : Except ε α} {f g : α → Except ε β}
    (hxy : x.mapError report = y.mapError report)
    (hfg : ∀ a, x = .ok a → (f a).mapError report = (g a).mapError report) :
    (x >>= f).mapError report = (y >>= g).mapError report := by
  cases x with
  | error e =>
    cases y with
    | error e' => exact congrArg Except.error (Except.error.inj hxy)
    | ok a => cases hxy
  | ok a =>
    cases y with
    | error e => cases hxy
    | ok b =>
      obtain rfl := Except.ok.inj hxy
      exact hfg a rfl

theorem mapError_map (x : Except ε α) (f : α → β) :
    (x.map f).mapError report = (x.mapError report).map f := by
  cases x <;> rfl

end

/-! ## Failures -/

/-- All failures of a computation have a property. -/
def FailsOnly (P : ε → Prop) (x : Except ε α) : Prop := ∀ e, x = .error e → P e

namespace FailsOnly

variable {P Q : ε → Prop}

theorem ok (a : α) : FailsOnly P (.ok a) := nofun

theorem error {e : ε} (h : P e) : FailsOnly P (.error e : Except ε α) := by
  rintro _ ⟨⟩
  exact h

theorem mono {x : Except ε α} (h : FailsOnly P x) (hPQ : ∀ e, P e → Q e) : FailsOnly Q x :=
  fun e he => hPQ e (h e he)

/-- A chain fails as its first part does, or as what is done with its result does. -/
theorem bind {x : Except ε α} {f : α → Except ε β} (hx : FailsOnly P x)
    (hf : ∀ a, x = .ok a → FailsOnly P (f a)) : FailsOnly P (x >>= f) := by
  cases x with
  | error e => exact error (hx e rfl)
  | ok a => exact hf a rfl

theorem map {x : Except ε α} (hx : FailsOnly P x) (f : α → β) : FailsOnly P (f <$> x) := by
  cases x with
  | error e => exact error (hx e rfl)
  | ok a => exact ok (f a)

theorem mapM {f : α → Except ε β} : ∀ {as : List α}, (∀ a ∈ as, FailsOnly P (f a)) →
    FailsOnly P (as.mapM f)
  | [], _ => ok []
  | a :: as, h => by
    rw [List.mapM_cons]
    refine (h a List.mem_cons_self).bind fun b _ => ?_
    exact (mapM fun a ha => h a (List.mem_cons_of_mem _ ha)).bind fun bs _ => ok _

end FailsOnly

/-! ## Steps on a state -/

theorem get_apply (s : σ) : (get : EStateM ε σ σ) s = .ok s s := rfl

theorem modify_apply (change : σ → σ) (s : σ) :
    (modify change : EStateM ε σ Unit) s = .ok () (change s) := rfl

theorem step_bind_of_ok {p : EStateM ε σ α} {q : α → EStateM ε σ β} {s s₁ : σ} {a : α}
    (h : p s = .ok a s₁) : (p >>= q) s = q a s₁ := by
  simp only [bind, EStateM.bind, h]

theorem step_bind_of_error {p : EStateM ε σ α} {q : α → EStateM ε σ β} {s s₁ : σ} {e : ε}
    (h : p s = .error e s₁) : (p >>= q) s = .error e s₁ := by
  simp only [bind, EStateM.bind, h]

/-- A chain of steps succeeds if both parts do, the second one from where the first one ends. -/
theorem step_bind_eq_ok {p : EStateM ε σ α} {q : α → EStateM ε σ β} {s s' : σ} {b : β} :
    (p >>= q) s = .ok b s' ↔ ∃ a s₁, p s = .ok a s₁ ∧ q a s₁ = .ok b s' := by
  simp only [bind, EStateM.bind]
  cases p s with
  | error e s₁ => simp
  | ok a s₁ => exact ⟨fun h => ⟨a, s₁, rfl, h⟩, fun ⟨_, _, hfirst, h⟩ => by cases hfirst; exact h⟩

/-! ## Lists -/

/-- What a computation gives for the elements of a list has the keys of the elements. -/
theorem map_eq_of_mapM_ok {f : α → Except ε β} {key : β → γ} {key' : α → γ}
    (hf : ∀ {a b}, f a = .ok b → key b = key' a) :
    ∀ {as : List α} {bs : List β}, as.mapM f = .ok bs → bs.map key = as.map key'
  | [], bs, h => by
    cases h
    rfl
  | a :: as, bs, h => by
    rw [List.mapM_cons, bind_eq_ok] at h
    obtain ⟨b, hb, h⟩ := h
    rw [bind_eq_ok] at h
    obtain ⟨bs', hbs, h⟩ := h
    rw [← pure_eq_ok.1 h, List.map_cons, List.map_cons, hf hb, map_eq_of_mapM_ok hf hbs]

theorem mapM_eq_ok_iff {f : α → Except ε β} : ∀ {as : List α} {bs : List β},
    as.mapM f = .ok bs ↔ as.map f = bs.map .ok
  | [], bs => by
    rw [List.mapM_nil, pure_eq_ok, List.map_nil, List.nil_eq, List.nil_eq, List.map_eq_nil_iff]
  | a :: as, bs => by
    rw [List.mapM_cons, List.map_cons, bind_eq_ok]
    constructor
    · rintro ⟨b, hb, h⟩
      obtain ⟨bs', hbs, h⟩ := bind_eq_ok.1 h
      rw [← pure_eq_ok.1 h, List.map_cons, hb, mapM_eq_ok_iff.1 hbs]
    · intro h
      obtain ⟨b, bs', rfl, hb, hbs⟩ := List.map_eq_cons_iff.1 h.symm
      refine ⟨b, hb.symm, bind_eq_ok.2 ⟨bs', mapM_eq_ok_iff.2 hbs.symm, rfl⟩⟩

theorem mapM_eq_ok_iff_forall₂ {f : α → Except ε β} {as : List α} {bs : List β} :
    as.mapM f = .ok bs ↔ List.Forall₂ (fun a b => f a = .ok b) as bs := by
  rw [mapM_eq_ok_iff, ← List.forall₂_eq_eq_eq, List.forall₂_map_left_iff,
    List.forall₂_map_right_iff]

theorem forall₂_of_mapM_ok {f : α → Except ε β} {as : List α} {bs : List β}
    (h : as.mapM f = .ok bs) : List.Forall₂ (fun a b => f a = .ok b) as bs :=
  mapM_eq_ok_iff_forall₂.1 h

theorem exists_of_mapM_ok {f : α → Except ε β} {b : β} {as : List α} {bs : List β}
    (h : as.mapM f = .ok bs) (hb : b ∈ bs) : ∃ a ∈ as, f a = .ok b := by
  have hmem : Except.ok b ∈ as.map f := by
    rw [mapM_eq_ok_iff.1 h]
    exact List.mem_map_of_mem hb
  exact List.mem_map.1 hmem

end FluidCss
