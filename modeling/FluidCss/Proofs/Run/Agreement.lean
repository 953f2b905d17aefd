import FluidCss.Proofs.Run.Visit

/-!
# Registries that agree

A run asks its registry for the entries of a scale by name, and only for those scales that its
utilities name. So the order in which scales came does not matter, and neither do scales that no
utility asks for: from registries that agree on the names that are asked for, the fold makes the
same nodes or fails with the same error, and the registries still agree.

* `Fold.nodes_alike`: what the fold makes of nodes depends on the scales that they name alone.
* `Fold.get?_nodes`: a scale that nodes do not define stays what it was.
-/

namespace FluidCss

/-! ## Registries -/

namespace Registry

/-- Two registries give the same entries for the names of a kind. -/
def AgreeOn (P : Text → Prop) (r r' : Registry) : Prop :=
  ∀ name, P name → r.get? name = r'.get? name

namespace AgreeOn

variable {P : Text → Prop} {r r' : Registry}

theorem refl (P : Text → Prop) (r : Registry) : r.AgreeOn P r := fun _ _ => rfl

/-- A scale that both get leaves them in agreement. -/
theorem register (h : r.AgreeOn P r') (name : Text) (entries : List Scale.Entry) :
    (r.register name entries).AgreeOn P (r'.register name entries) := by
  intro other hother
  by_cases hname : other = name
  · rw [hname, get?_register_self, get?_register_self]
  · rw [get?_register_of_ne hname, get?_register_of_ne hname, h other hother]

end AgreeOn

/-- A registry agrees with itself after a scale is registered, but for the name of that scale. -/
theorem agreeOn_register (r : Registry) (name : Text) (entries : List Scale.Entry) :
    r.AgreeOn (· ≠ name) (r.register name entries) :=
  fun _ hother => (get?_register_of_ne hother r entries).symm

end Registry

/-! ## The scales that directives name -/

namespace Directive

/-- The name of the scale that a directive defines, as far as it can be read. -/
def definedScale? (settings : Settings) (params : Text) : Option Text :=
  if ofParams params = .scale then
    (do Param.scaleOf (← Param.Value.readDirective "scale" params) settings).toOption.map Scale.name
  else none

/-- The name of the scale that a directive asks a utility of, as far as it can be read. -/
def usedScale? (params : Text) : Option Text :=
  if ofParams params = .utility then
    (do Param.utilityOf (← Param.Value.readDirective "utility" params)).toOption.bind
      fun u => Utility.given u.scale
  else none

theorem definedScale?_of_readScale {settings : Settings} {params : Text} {scale : Scale}
    {entries : List Scale.Entry} (hkind : ofParams params = .scale)
    (h : readScale settings params = .ok (scale, entries)) :
    definedScale? settings params = some scale.name := by
  obtain ⟨fields, hfields, hscale, -⟩ := readScale_eq_ok.1 h
  simp [definedScale?, hkind, hfields, hscale, bind, Except.bind, Except.toOption]

end Directive

theorem Utility.expand_congr {u : Utility} {r r' : Registry}
    (h : ∀ name, given u.scale = some name → r.get? name = r'.get? name) (settings : Settings) :
    u.expand r settings = u.expand r' settings := by
  have hentries : u.checkedEntries r = u.checkedEntries r' := by
    unfold checkedEntries
    cases hname : given u.scale with
    | none => rfl
    | some name => simp only [h name hname]
  rw [expand, expand, hentries]

theorem Directive.readUtility_congr {params : Text} {r r' : Registry}
    (hkind : ofParams params = .utility)
    (h : ∀ name, usedScale? params = some name → r.get? name = r'.get? name) (settings : Settings) :
    readUtility settings r params = readUtility settings r' params := by
  unfold readUtility
  cases hfields : Param.Value.readDirective "utility" params with
  | error e => rfl
  | ok fields =>
    cases hutility : Param.utilityOf fields with
    | error e => simp [hutility, bind, Except.bind]
    | ok utility =>
      have hexpand : utility.expand r settings = utility.expand r' settings := by
        refine Utility.expand_congr (fun name hname => h name ?_) settings
        simp [usedScale?, hkind, hfields, hutility, hname, bind, Except.bind,
          Except.toOption]
      simp [hutility, hexpand, bind, Except.bind]

/-! ## The fold -/

namespace Fold

/-- The fold comes to a directive with the given parameters in a row of nodes. -/
inductive Meets (params : Text) : List Node → Prop
  | here {block : Bool} {children ns : List Node} :
    Meets params (.atRule Directive.atName params block children :: ns)
  | rule {selector : Text} {children ns : List Node} : Meets params children →
    Meets params (.rule selector children :: ns)
  | atRule {name params' : Text} {block : Bool} {children ns : List Node} :
    name ≠ Directive.atName → Meets params children →
    Meets params (.atRule name params' block children :: ns)
  | later {n : Node} {ns : List Node} : Meets params ns → Meets params (n :: ns)

theorem Meets.append_right {params : Text} {ns : List Node} (h : Meets params ns)
    (others : List Node) : Meets params (ns ++ others) := by
  induction h with
  | here => exact .here
  | rule h _ => exact .rule h
  | atRule hname h _ => exact .atRule hname h
  | later _ ih => exact .later ih

/-- The same error, or the same nodes with registries that agree. -/
inductive Alike (P : Text → Prop) :
    Except Error (Registry × List Node) → Except Error (Registry × List Node) → Prop
  | error (e : Error) : Alike P (.error e) (.error e)
  | ok {r r' : Registry} (hagree : r.AgreeOn P r') (ns : List Node) :
    Alike P (.ok (r, ns)) (.ok (r', ns))

theorem Alike.elim {P : Text → Prop} {x y : Except Error (Registry × List Node)}
    (h : Alike P x y) : (∃ e, x = .error e ∧ y = .error e) ∨
      ∃ r r' ns, x = .ok (r, ns) ∧ y = .ok (r', ns) ∧ r.AgreeOn P r' := by
  cases h with
  | error e => exact .inl ⟨e, rfl, rfl⟩
  | ok hagree ns => exact .inr ⟨_, _, ns, rfl, rfl, hagree⟩

theorem Alike.bind {P : Text → Prop} {x y : Except Error (Registry × List Node)}
    {f g : Registry × List Node → Except Error (Registry × List Node)} (h : Alike P x y)
    (hfg : ∀ r r' ns, r.AgreeOn P r' → Alike P (f (r, ns)) (g (r', ns))) :
    Alike P (x >>= f) (y >>= g) := by
  cases h with
  | error e => exact .error e
  | ok hagree ns => exact hfg _ _ ns hagree

variable {settings : Settings} {P : Text → Prop} {r r' : Registry}

theorem directive_alike {params : Text} (h : r.AgreeOn P r')
    (hused : ∀ name, Directive.usedScale? params = some name → P name) (self : Node) :
    Alike P (directive settings r params self) (directive settings r' params self) := by
  cases hkind : Directive.ofParams params with
  -- A scale is read without the registry, and a utility asks it for one name.
  | scale =>
    rw [directive_scale hkind, directive_scale hkind]
    cases Directive.readScale settings params with
    | error e => exact .error e
    | ok read => exact .ok (h.register read.1.name read.2) _
  | utility =>
    have hread := Directive.readUtility_congr hkind (fun name hname => h name (hused name hname))
      settings
    rw [directive_utility hkind, directive_utility hkind, hread]
    cases Directive.readUtility settings r' params with
    | error e => exact .error e
    | ok read => exact .ok h _
  | unknown =>
    rw [directive_unknown hkind, directive_unknown hkind]
    exact .ok h _

mutual

theorem node_alike : ∀ {n : Node} {r r' : Registry}, r.AgreeOn P r' →
    (∀ params name, Meets params [n] → Directive.usedScale? params = some name → P name) →
    Alike P (node settings r n) (node settings r' n)
  | .declaration property value, r, r', h, _ => by
    simp only [node]
    cases Inline.resolve settings.minWidth settings.maxWidth value with
    | error e => exact .error e
    | ok new => exact .ok h _
  | .comment text, _, _, h, _ => .ok h _
  | .rule selector children, _, _, h, hused =>
    (nodes_alike h fun params name hmeets => hused params name (.rule hmeets)).bind
      fun _ _ _ h => .ok h _
  -- A directive is met itself, and any other at-rule by what stands in it.
  | .atRule name params block children, r, r', h, hused => by
    rcases eq_or_ne name Directive.atName with rfl | hname
    · rw [node_directive, node_directive]
      exact directive_alike h (fun name hname => hused params name .here hname) _
    · rw [node_atRule hname, node_atRule hname]
      exact (nodes_alike h fun params name hmeets => hused params name (.atRule hname hmeets)).bind
        fun _ _ _ h => .ok h _
  | .root children, _, _, h, _ => .ok h _

/-- **What the fold makes of nodes depends on the scales that they name alone.** -/
theorem nodes_alike : ∀ {ns : List Node} {r r' : Registry}, r.AgreeOn P r' →
    (∀ params name, Meets params ns → Directive.usedScale? params = some name → P name) →
    Alike P (nodes settings r ns) (nodes settings r' ns)
  | [], _, _, h, _ => .ok h []
  | _ :: ns, _, _, h, hused =>
    (node_alike h fun params name hmeets => hused params name (hmeets.append_right ns)).bind
      fun _ _ _ h =>
        (nodes_alike h fun params name hmeets => hused params name (.later hmeets)).bind
        fun _ _ _ h => .ok h _

end

theorem directive_eq_ok {params : Text} {self : Node} {ns : List Node}
    (h : directive settings r params self = .ok (r', ns)) :
    (Directive.ofParams params = .scale ∧ ∃ scale entries,
      Directive.readScale settings params = .ok (scale, entries) ∧
      r' = r.register scale.name entries ∧ ns = Directive.scaleNodes scale.name entries) ∨
    (Directive.ofParams params = .utility ∧ ∃ utility rules,
      Directive.readUtility settings r params = .ok (utility, rules) ∧ r' = r ∧
      ns = Directive.utilityNodes rules) ∨
    Directive.ofParams params = .unknown ∧ r' = r ∧ ns = [self] := by
  cases hkind : Directive.ofParams params with
  | scale =>
    rw [directive_scale hkind] at h
    obtain ⟨⟨scale, entries⟩, hread, h⟩ := map_eq_ok.1 h
    obtain ⟨rfl, rfl⟩ := Prod.mk.inj h
    exact .inl ⟨rfl, scale, entries, hread, rfl, rfl⟩
  | utility =>
    rw [directive_utility hkind] at h
    obtain ⟨⟨utility, rules⟩, hread, h⟩ := map_eq_ok.1 h
    obtain ⟨rfl, rfl⟩ := Prod.mk.inj h
    exact .inr (.inl ⟨rfl, utility, rules, hread, rfl, rfl⟩)
  | unknown =>
    rw [directive_unknown hkind] at h
    obtain ⟨rfl, rfl⟩ := Prod.mk.inj (Except.ok.inj h)
    exact .inr (.inr ⟨rfl, rfl, rfl⟩)

theorem get?_directive {params name : Text} {self : Node} {ns : List Node}
    (hname : Directive.definedScale? settings params ≠ some name)
    (h : directive settings r params self = .ok (r', ns)) : r'.get? name = r.get? name := by
  obtain ⟨hkind, scale, entries, hread, rfl, -⟩ | ⟨-, _, _, -, rfl, -⟩ | ⟨-, rfl, -⟩ :=
    directive_eq_ok h
  · rw [Directive.definedScale?_of_readScale hkind hread] at hname
    exact Registry.get?_register_of_ne (fun hsame => hname (by rw [hsame])) r entries
  · rfl
  · rfl

mutual

theorem get?_node {name : Text} : ∀ {n : Node} {r r' : Registry} {ns : List Node},
    (∀ params, Meets params [n] → Directive.definedScale? settings params ≠ some name) →
    node settings r n = .ok (r', ns) → r'.get? name = r.get? name
  | .declaration property value, _, _, _, _, h => by
    obtain ⟨_, -, h⟩ := bind_eq_ok.1 h
    rw [(Prod.mk.inj (pure_eq_ok.1 h)).1]
  | .comment _, _, _, _, _, h => by rw [(Prod.mk.inj (Except.ok.inj h)).1]
  | .rule selector children, _, _, _, hname, h => by
    obtain ⟨⟨_, _⟩, hchildren, h⟩ := bind_eq_ok.1 h
    rw [← (Prod.mk.inj (pure_eq_ok.1 h)).1]
    exact get?_nodes (fun params hmeets => hname params (.rule hmeets)) hchildren
  | .atRule name' params block children, r, r', ns, hname, h => by
    rcases eq_or_ne name' Directive.atName with rfl | hdirective
    -- Only a directive registers anything, and this one defines another scale.
    · rw [node_directive] at h
      exact get?_directive (hname params .here) h
    · rw [node_atRule hdirective] at h
      obtain ⟨⟨_, _⟩, hchildren, h⟩ := bind_eq_ok.1 h
      rw [← (Prod.mk.inj (pure_eq_ok.1 h)).1]
      exact get?_nodes (fun params hmeets => hname params (.atRule hdirective hmeets)) hchildren
  | .root _, _, _, _, _, h => by rw [(Prod.mk.inj (Except.ok.inj h)).1]

/-- **A scale that nodes do not define stays what it was.** -/
theorem get?_nodes {name : Text} : ∀ {ms : List Node} {r r' : Registry} {ns : List Node},
    (∀ params, Meets params ms → Directive.definedScale? settings params ≠ some name) →
    nodes settings r ms = .ok (r', ns) → r'.get? name = r.get? name
  | [], _, _, _, _, h => by rw [(Prod.mk.inj (Except.ok.inj h)).1]
  | m :: ms, _, _, _, hname, h => by
    obtain ⟨⟨_, _⟩, hfirst, h⟩ := bind_eq_ok.1 h
    obtain ⟨⟨_, _⟩, hothers, h⟩ := bind_eq_ok.1 h
    rw [← (Prod.mk.inj (pure_eq_ok.1 h)).1,
      get?_nodes (fun params hmeets => hname params (.later hmeets)) hothers,
      get?_node (fun params hmeets => hname params (hmeets.append_right ms)) hfirst]

end

end Fold

end FluidCss
