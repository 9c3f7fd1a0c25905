import Deduction.Proofs.Flattening
import Deduction.Proofs.Valuation
import Mathlib.Data.List.Forall2
import Mathlib.Order.FixedPoints
import Mathlib.Order.CompletePartialOrder

/-!
# Consequences of a program

The meaning of a program without any search. A tuple is a ground pattern: keywords and
individuals. A rule yields the tuples of its condition under all valuations under which
its body holds, and the derivable tuples are the least set that the rules do not leave.
A phrase stands for an individual that the program defines by it. Bodies are read without
negation and host goals, which have no meaning here.
-/

namespace Deduction

/-- An element of a tuple. -/
inductive Word where
  | keyword (word : Keyword)
  | individual (value : Individual)

/-- A pattern without variables and holes. -/
abbrev Tuple := List Word

/-- The tuple that defines an individual by the listed elements. -/
def Individual.definedBy (g : Individual) (elements : Tuple) : Tuple :=
  .individual g :: .keyword .definition :: elements

/-- The word is a ground instance of the term: variables stand for their values, and a hole
for any individual. -/
inductive Term.Grounds (τ : Valuation) : Term → Word → Prop
  | keyword {a : Keyword} : Grounds τ (.keyword a) (.keyword a)
  | const {g : Individual} : Grounds τ (.const g) (.individual g)
  | var {v : Variable} : Grounds τ (.var v) (.individual (τ v))
  | hole {g : Individual} : Grounds τ .hole (.individual g)

/-- The tuple is a ground instance of the pattern. -/
def Pattern.Grounds (τ : Valuation) : Pattern → Tuple → Prop := List.Forall₂ (Term.Grounds τ)

namespace Expr

mutual

/-- The word is an instance of the expression, if the given tuples hold. A phrase stands for
an individual that is defined by the elements of the phrase. -/
def Denotes (D : Set Tuple) (τ : Valuation) : Expr → Word → Prop
  | term t, w => t.Grounds τ w
  | phrase es, w => ∃ g ws, w = .individual g ∧ DenotesAll D τ es ws ∧ g.definedBy ws ∈ D

/-- The tuple is an instance of the listed expressions, if the given tuples hold. -/
def DenotesAll (D : Set Tuple) (τ : Valuation) : List Expr → Tuple → Prop
  | [], ws => ws = []
  | e :: es, ws => ∃ u us, ws = u :: us ∧ e.Denotes D τ u ∧ DenotesAll D τ es us

end

end Expr

/-- The goal holds, if the given tuples hold. Patterns speak of the declared variables, which
the first valuation gives a value, and calls speak of the rule's own variables. -/
def Goal.Holds (D : Set Tuple) (s own : Valuation) : Goal → Prop
  | truth => True
  | falsity | not _ | host _ => False
  | and p q => p.Holds D s own ∧ q.Holds D s own
  | or p q => p.Holds D s own ∨ q.Holds D s own
  | apply g => ∃ ws, Pattern.Grounds s g ws ∧ ws ∈ D
  | call es => ∃ ws, Expr.DenotesAll D own es ws ∧ ws ∈ D

/-- The definitions of a prelude hold, if the given tuples hold. -/
def Prelude.Holds (D : Set Tuple) (s : Valuation) : Prelude → Prop
  | empty => True
  | define t es => ∃ ws, Pattern.Grounds s es ws ∧ (s t).definedBy ws ∈ D
  | both p q => p.Holds D s ∧ q.Holds D s

/-! ## Monotonicity -/

section

variable {D D' : Set Tuple} {τ s own : Valuation}

mutual

/-- An expression that denotes a word goes on to do so when more is derivable. -/
theorem Expr.Denotes.mono (hD : D ⊆ D') : ∀ {e : Expr} {w : Word},
    e.Denotes D τ w → e.Denotes D' τ w
  | .term t, w, h => by
    simp only [Denotes] at h ⊢
    exact h
  | .phrase es, w, h => by
    simp only [Denotes] at h ⊢
    obtain ⟨g, ws, hw, hes, hg⟩ := h
    exact ⟨g, ws, hw, Expr.DenotesAll.mono hD hes, hD hg⟩

/-- Listed expressions that denote a tuple go on to do so when more is derivable. -/
theorem Expr.DenotesAll.mono (hD : D ⊆ D') : ∀ {es : List Expr} {ws : Tuple},
    Expr.DenotesAll D τ es ws → Expr.DenotesAll D' τ es ws
  | [], ws, h => by
    rw [DenotesAll] at h ⊢
    exact h
  | e :: es, ws, h => by
    rw [DenotesAll] at h ⊢
    obtain ⟨u, us, hws, he, hes⟩ := h
    exact ⟨u, us, hws, Expr.Denotes.mono hD he, Expr.DenotesAll.mono hD hes⟩

end

/-- A goal that holds goes on to hold when more is derivable. -/
theorem Goal.Holds.mono (hD : D ⊆ D') {p : Goal} (h : p.Holds D s own) : p.Holds D' s own := by
  induction p with
  | truth => trivial
  | falsity => exact h.elim
  | and p q ihp ihq => exact ⟨ihp h.1, ihq h.2⟩
  | or p q ihp ihq => exact h.imp ihp ihq
  | not p _ => exact h.elim
  | apply g =>
    obtain ⟨ws, hg, hws⟩ := h
    exact ⟨ws, hg, hD hws⟩
  | call es =>
    obtain ⟨ws, hes, hws⟩ := h
    exact ⟨ws, Expr.DenotesAll.mono hD hes, hD hws⟩
  | host g => exact h.elim

end

/-! ## Derivable tuples -/

namespace Program

/-- The tuples that the rules yield from the given ones. -/
def consequences (program : Program) : Set Tuple →o Set Tuple where
  toFun D := {ws | ∃ r ∈ program, ∃ τ, Pattern.Grounds τ r.condition ws ∧ r.body.Holds D τ τ}
  monotone' _ _ hD _ := fun ⟨r, hr, τ, hc, hb⟩ => ⟨r, hr, τ, hc, hb.mono hD⟩

/-- The least set of tuples that contains all its consequences. -/
def derivable (program : Program) : Set Tuple := program.consequences.lfp

/-- A tuple is derivable exactly when some rule yields it from derivable tuples. -/
theorem mem_derivable_iff {program : Program} {ws : Tuple} :
    ws ∈ program.derivable ↔ ∃ r ∈ program, ∃ τ, Pattern.Grounds τ r.condition ws ∧
      r.body.Holds program.derivable τ τ := by
  have hfixed : program.consequences program.derivable = program.derivable :=
    program.consequences.map_lfp
  conv_lhs => rw [← hfixed]
  rfl

end Program

/-! ## Ground instances -/

section

variable {D : Set Tuple} {τ s s' own : Valuation} {k : Env}

/-- A constant grounds to itself, if it is an individual. -/
theorem Term.grounds_const_iff {c : Constant} {w : Word} :
    (Term.const c).Grounds τ w ↔ ∃ g : Individual, g = c ∧ w = .individual g := by
  constructor
  · rintro ⟨⟩
    exact ⟨_, rfl, rfl⟩
  · rintro ⟨g, rfl, rfl⟩
    exact .const

/-- A variable grounds to what the valuation gives it. -/
theorem Term.grounds_var_iff {v : Variable} {w : Word} :
    (Term.var v).Grounds τ w ↔ w = .individual (τ v) := by
  constructor
  · rintro ⟨⟩
    rfl
  · rintro rfl
    exact .var

/-- The ground instances of a term depend on the value of its variable only. -/
theorem Term.Grounds.congr {t : Term} {w : Word} (h : t.Grounds s w)
    (hs : t.Vars fun v => s' v = s v) : t.Grounds s' w := by
  cases h with
  | keyword => exact .keyword
  | const => exact .const
  | @var v =>
    rw [← hs v rfl]
    exact .var
  | hole => exact .hole

/-- What a term grounds to depends on the declared variables only. -/
theorem Term.Grounds.of_agree {t : Term} {w : Word} (h : t.Grounds s w)
    (ht : t.Within Constant.IsStable k) (hs : k.Agree s s') : t.Grounds s' w :=
  h.congr fun v hv => hs v (ht.2 v hv)

/-- What a pattern grounds to depends on the declared variables only. -/
theorem Pattern.Grounds.of_agree {g : Pattern} {ws : Tuple} (h : Pattern.Grounds s g ws)
    (hg : Pattern.Each (Term.Within Constant.IsStable k) g) (hs : k.Agree s s') :
    Pattern.Grounds s' g ws := by
  induction h with
  | nil => exact .nil
  | cons ht _ ih =>
    exact .cons (ht.of_agree (hg _ List.mem_cons_self) hs)
      (ih fun x hx => hg x (List.mem_cons_of_mem _ hx))

/-- A referent has one ground instance. -/
theorem Referent.grounds_toTerm_iff {r : Referent} {g : Individual} :
    r.toTerm.Grounds s (.individual g) ↔ g = r.value s := by
  cases r with
  | const c =>
    rw [toTerm, Term.grounds_const_iff]
    constructor
    · rintro ⟨g', rfl, hg⟩
      cases hg
      rfl
    · rintro rfl
      exact ⟨g, rfl, rfl⟩
  | var v =>
    rw [toTerm, Term.grounds_var_iff, Word.individual.injEq]
    exact Subtype.ext_iff

/-- A referent grounds to its value. -/
theorem Referent.grounds_toTerm {r : Referent} {w : Word} (h : r.toTerm.Grounds s w) :
    ∃ g : Individual, w = .individual g ∧ g = r.value s := by
  obtain ⟨g, rfl⟩ : ∃ g, w = .individual g := by cases r <;> cases h <;> exact ⟨_, rfl⟩
  exact ⟨g, rfl, grounds_toTerm_iff.mp h⟩

/-- The ground instances of a definition pattern define the value of its variable. -/
theorem Pattern.grounds_definedBy_iff {t : Variable} {es : List Term} {ws : Tuple} :
    Pattern.Grounds s (t.definedBy es) ws ↔
      ∃ us, Pattern.Grounds s es us ∧ ws = (s t).definedBy us := by
  constructor
  · rintro (_ | ⟨ht, _ | ⟨hd, hes⟩⟩)
    cases ht
    cases hd
    exact ⟨_, hes, rfl⟩
  · rintro ⟨us, hes, rfl⟩
    exact .cons .var (.cons .keyword hes)

namespace Prelude

/-- Leaving out empty parts changes no meaning. -/
theorem holds_conj_iff {p q : Prelude} : (p.conj q).Holds D s ↔ p.Holds D s ∧ q.Holds D s := by
  cases p <;> cases q <;> simp [conj, Holds]

/-- A prelude holds where its goal does. -/
theorem holds_toGoal_iff {p : Prelude} : p.toGoal.Holds D s own ↔ p.Holds D s := by
  induction p with
  | empty => exact Iff.rfl
  | define t es =>
    simp only [toGoal, Goal.Holds, Holds, Pattern.grounds_definedBy_iff]
    constructor
    · rintro ⟨_, ⟨us, hes, rfl⟩, hD⟩
      exact ⟨us, hes, hD⟩
    · rintro ⟨us, hes, hD⟩
      exact ⟨_, ⟨us, hes, rfl⟩, hD⟩
  | both p q ihp ihq => exact and_congr ihp ihq

/-- Whether a prelude holds depends on the declared variables only. -/
theorem Holds.of_agree {p : Prelude} (h : p.Holds D s)
    (hp : p.Each (Term.Within Constant.IsStable k)) (hs : k.Agree s s') : p.Holds D s' := by
  induction p with
  | empty => trivial
  | define t es =>
    obtain ⟨ws, hes, hD⟩ := h
    refine ⟨ws, hes.of_agree hp.2 hs, ?_⟩
    rw [hs t (hp.1.2 t rfl)]
    exact hD
  | both p q ihp ihq => exact ⟨ihp h.1 hp.1, ihq h.2 hp.2⟩

end Prelude

end

end Deduction
