import Deduction.Proofs.Restoring

/-!
# Valuations

A valuation gives every variable an individual: an atom, or a value whose payload is
compared by its content or its identity. An environment is a set of equations, and a
valuation satisfies it when all of them hold. The equations of an outer environment after
the return from an inner one are exactly those of the inner one about outer variables:
what satisfies the inner one satisfies the restored one, and what satisfies the restored
one can be changed elsewhere so that it satisfies the inner one.
-/

namespace Deduction

/-- Payloads whose comparison never fails and holds of the same payload only. -/
def Payload.IsStable : Payload → Prop
  | .int _ | .byte _ | .bool _ | .text _ | .ints _ | .nan _ => True
  | .unstable _ | .caseless _ _ => False

instance (p : Payload) : Decidable p.IsStable :=
  match p with
  | .int _ | .byte _ | .bool _ | .text _ | .ints _ | .nan _ => isTrue trivial
  | .unstable _ | .caseless _ _ => isFalse id

/-- Atoms, and values with stable payloads. -/
def Constant.IsStable : Constant → Prop
  | .atom _ => True
  | .value p => p.IsStable

instance (c : Constant) : Decidable c.IsStable :=
  match c with
  | .atom _ => isTrue trivial
  | .value p => inferInstanceAs (Decidable p.IsStable)

/-- A stable payload agrees with itself and with no other. -/
theorem Payload.IsStable.agrees_eq {p : Payload} (hp : p.IsStable) (q : Payload) :
    p.agrees q = .ok (decide (p = q)) := by
  by_cases hpq : p = q
  · simp [agrees, hpq]
  · cases p <;> simp_all [agrees, IsStable]

/-- The stable payloads are those whose comparison never fails and is equality. -/
theorem Payload.isStable_iff {p : Payload} :
    p.IsStable ↔ ∀ q, p.agrees q = .ok (decide (p = q)) := by
  refine ⟨fun hp q => hp.agrees_eq q, fun h => ?_⟩
  cases p with
  | unstable object =>
    have hfault : (unstable object).agrees (.int 0) = .error .unstable := rfl
    rw [h (.int 0)] at hfault
    cases hfault
  | caseless object s =>
    have hfault : (caseless object s).agrees (.text "") = .error .emptyText := rfl
    rw [h (.text "")] at hfault
    cases hfault
  | _ => trivial

/-- For stable constants agreement is equality. -/
theorem Constant.IsStable.agrees_eq {c : Constant} (hc : c.IsStable) (d : Constant) :
    c.agrees d = .ok (decide (c = d)) := by
  cases c with
  | atom a => cases d <;> simp [agrees, beq_eq_decide]
  | value p =>
    cases d with
    | atom b => simp [agrees]
    | value q => simp [agrees, Payload.IsStable.agrees_eq hc q]

/-- What a variable can stand for. -/
abbrev Individual := {c : Constant // c.IsStable}

instance : Inhabited Individual := ⟨.atom "", trivial⟩

/-- A constant as an individual; one that is not stable is replaced. -/
def Constant.individual (c : Constant) : Individual := if h : c.IsStable then ⟨c, h⟩ else default

/-- A stable constant is itself as an individual. -/
theorem Constant.IsStable.coe_individual {c : Constant} (hc : c.IsStable) :
    (c.individual : Constant) = c := by simp [individual, hc]

/-- An individual for every variable. -/
abbrev Valuation := Variable → Individual

/-- The individual satisfies what is known of a variable. -/
def Status.Allows (s : Valuation) (g : Individual) : Status → Prop
  | .unresolved => True
  | .resolved c => g = c
  | .linked w => g = s w

/-- The constant that a referent stands for under a valuation. -/
def Referent.value (s : Valuation) : Referent → Constant
  | .const c => c
  | .var v => s v

namespace Env

/-- Every declared variable stands for what is known of it. -/
def Satisfied (s : Valuation) (k : Env) : Prop :=
  ∀ v st, k.statuses.get? v = some st → st.Allows s (s v)

/-- The first valuation satisfies the environment, and the second one gives the rule's own
variables what they are bound to. -/
structure Models (s own : Valuation) (k : Env) : Prop where
  satisfied : k.Satisfied s
  bindings : ∀ {l r}, k.referent? l = some r → own l = r.value s

/-- The two valuations agree on the declared variables. -/
def Agree (k : Env) (s s' : Valuation) : Prop :=
  ∀ v, k.declares v = true → s' v = s v

variable {s s' own : Valuation} {k k₁ k' inner outer : Env}

/-- A valuation agrees with itself. -/
theorem Agree.refl (k : Env) (s : Valuation) : k.Agree s s := fun _ _ => rfl

/-- Valuations that agree step by step agree on what was declared first. -/
theorem Agree.trans {s'' : Valuation} (h : k.Agree s s') (hk : k.Extends k₁)
    (h' : k₁.Agree s' s'') : k.Agree s s'' :=
  fun v hv => (h' v (hk.declared hv)).trans (h v hv)

/-- Agreement can be read in both directions. -/
theorem Agree.symm (h : k.Agree s s') : k.Agree s' s := fun v hv => (h v hv).symm

/-- What satisfies an extension satisfies the environment itself. -/
theorem Satisfied.of_extends (h : k'.Satisfied s) (hk : k.Extends k') : k.Satisfied s := by
  intro v st hv
  cases st with
  | unresolved => trivial
  | resolved c => exact h v _ (hk.kept hv (by simp))
  | linked w => exact h v _ (hk.kept hv (by simp))

/-- What models a continuation models the environment. -/
theorem Models.of_continues (h : k'.Models s own) (hk : k.Continues k') : k.Models s own :=
  ⟨h.satisfied.of_extends hk.toExtends, fun hl => h.bindings (hk.bindings hl)⟩

/-- Whether an environment is satisfied depends on its declared variables only. -/
theorem Satisfied.of_agree (hk : k.WellFormed) (h : k.Satisfied s) (hs : k.Agree s s') :
    k.Satisfied s' := by
  intro v st hv
  have hallows := h v st hv
  have hself := hs v (declares_iff.mpr ⟨st, hv⟩)
  cases st with
  | unresolved => trivial
  | resolved c => exact (congrArg Subtype.val hself).trans hallows
  | linked w => exact (hself.trans hallows).trans (hs w (hk.grounded.contains_of_linked hv)).symm

/-- What models an environment depends on its declared variables only. -/
theorem Models.of_agree (hk : k.WellFormed) (h : k.Models s own) (hs : k.Agree s s') :
    k.Models s' own := by
  refine ⟨h.satisfied.of_agree hk hs, fun {l r} hl => ?_⟩
  have hvalue := h.bindings hl
  cases r with
  | const c => exact hvalue
  | var v => exact hvalue.trans (congrArg Subtype.val (hs v (hk.referents hl)).symm)

/-- What the rule's own variables are bound to; the unbound ones stand for anything. -/
def boundValues (k : Env) (s : Valuation) : Valuation := fun l =>
  ((k.referent? l).map fun r => (r.value s).individual).getD default

/-- The own variables of a rule can be given what they are bound to. -/
theorem Satisfied.models_boundValues (h : k.Satisfied s) (hU : k.Over Constant.IsStable) :
    k.Models s (k.boundValues s) := by
  refine ⟨h, fun {l r} hl => ?_⟩
  have hstable : (r.value s).IsStable := by
    cases r with
    | const c => exact hU.locals hl
    | var v => exact (s v).2
  rw [boundValues, hl]
  exact hstable.coe_individual

/-! ## Chains -/

/-- A satisfying valuation is constant along a chain, and gives its end what the root tells. -/
theorem Ends.allows {v : Variable} {r : Root} (h : Ends k.statuses v r) (hs : k.Satisfied s) :
    s v = s r.last ∧ ∀ c, r.value = some c → s v = c := by
  induction h with
  | unresolved => exact ⟨rfl, fun c hc => by cases hc⟩
  | resolved hv =>
    refine ⟨rfl, fun c hc => ?_⟩
    cases hc
    exact hs _ _ hv
  | linked hv _ ih =>
    have hlink : s _ = s _ := hs _ _ hv
    rw [hlink]
    exact ih

/-- The valuation read off the roots; unresolved roots and other variables keep theirs. -/
def settle (k : Env) (s : Valuation) : Valuation := fun v =>
  match k.root v with
  | .ok ⟨_, some c⟩ => c.individual
  | .ok ⟨last, none⟩ => s last
  | .error _ => s v

/-- A variable is settled at the end of its chain. -/
theorem settle_of_ends {v : Variable} {r : Root} (h : Ends k.statuses v r) :
    k.settle s v = match r.value with
      | some c => c.individual
      | none => s r.last := by
  rw [settle, h.root_eq]
  rcases r with ⟨last, _ | c⟩ <;> rfl

/-- Every well-formed environment is satisfied by some valuation. -/
theorem satisfied_settle (hk : k.WellFormed) (hU : k.Over Constant.IsStable) (s : Valuation) :
    k.Satisfied (k.settle s) := by
  intro v st hv
  cases st with
  | unresolved => trivial
  | resolved c =>
    have hsettle := settle_of_ends (s := s) (.resolved hv)
    rw [hsettle]
    exact Constant.IsStable.coe_individual (hU.statuses hv)
  | linked w =>
    obtain ⟨r, hr⟩ := hk.grounded.ends_of_linked hv
    exact (settle_of_ends (.linked hv hr)).trans (settle_of_ends hr).symm

/-! ## Leaving a scope -/

/-- The return to an outer scope adds no equation. -/
theorem Satisfied.restore (h : inner.Satisfied s) (hrestore : inner.restore outer = .ok k') :
    k'.Satisfied s := by
  intro v st hv
  rcases status_of_restore hrestore hv with hkept | rfl | ⟨w, r, hw, hr, rfl⟩
  · exact h v st hkept
  · trivial
  · have hlink : s v = s w := h v _ hw
    obtain ⟨hlast, hvalue⟩ := hr.allows h
    rcases r with ⟨last, _ | c⟩
    · exact hlink.trans hlast
    · exact (congrArg Subtype.val hlink).trans (hvalue c rfl)

/-- The return to an outer scope loses no equation between outer variables. -/
theorem Satisfied.exists_inner (h : k'.Satisfied s) (hrestore : inner.restore outer = .ok k')
    (hinner : inner.WellFormed) (hU : inner.Over Constant.IsStable)
    (hdeclared : ∀ {v}, outer.declares v = true → inner.declares v = true) :
    ∃ s', inner.Satisfied s' ∧ outer.Agree s s' := by
  refine ⟨inner.settle s, satisfied_settle hinner hU s, fun v hv => ?_⟩
  obtain ⟨r, hr⟩ := hinner.grounded v (hdeclared hv)
  obtain ⟨r', hr', hvalue, hlast⟩ := ends_restore hrestore hv hr
  obtain ⟨hlast', hvalue'⟩ := hr'.allows h
  rw [settle_of_ends hr]
  rcases r with ⟨last, _ | c⟩
  · rw [hlast rfl] at hlast'
    exact hlast'.symm
  · have hc := hU.statuses hr.get?_last
    exact Subtype.ext (hc.coe_individual.trans (hvalue' c hvalue).symm)

end Env

end Deduction
