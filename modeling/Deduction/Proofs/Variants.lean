import Deduction.Proofs.Blame
import Deduction.Proofs.Renaming
import Deduction.Sample.Family

/-!
# Variants of a program

The names of a rule's variables do not matter, whatever names the query and the other rules
use. A program and a variant of it, in which each rule is renamed on its own, are searched in
step: at each step the two environments are alike, and after each rule they are alike again.
-/

namespace Deduction

open Search

/-- The second rule is the first one with new names for its variables: all variables are named,
and no two of them get the same name. -/
def Rule.IsVariant (r r' : Rule) : Prop :=
  ∃ (σ : String → String) (N : Set String), Set.InjOn σ N ∧
    Pattern.Each (Term.Vars (Variable.Named N)) r.condition ∧
    r.body.Each (Term.Vars (Variable.Named N)) ∧ r' = r.rename σ

section

variable {base : Nat} {σ : String → String} {N : Set String} {k k' : Env}

/-- A goal of the rule and its renamed variant have the same shape. -/
theorem Goal.shaped_rename (σ : String → String) {p : Goal} (hcalls : p.CallsOnly)
    (hp : p.Each (Term.Vars (Variable.Named N))) :
    p.Shaped (fun _ _ => False)
      (fun es es' => es' = Expr.renameAll σ es ∧ Expr.EachOf (Term.Vars (Variable.Named N)) es)
      (p.rename σ) := by
  induction p with
  | truth => exact .truth
  | falsity => exact .falsity
  | and p q ihp ihq => exact .and (ihp hcalls.1 hp.1) (ihq hcalls.2 hp.2)
  | or p q ihp ihq => exact .or (ihp hcalls.1 hp.1) (ihq hcalls.2 hp.2)
  | not p ih => exact .not (ih hcalls hp)
  | apply g => exact hcalls.elim
  | call es => exact .call ⟨rfl, hp⟩
  | host g => exact hcalls.elim

/-- A goal of calls stays one under new names. -/
theorem Goal.CallsOnly.rename (σ : String → String) {p : Goal} (h : p.CallsOnly) :
    (p.rename σ).CallsOnly := by
  induction p with
  | truth => trivial
  | falsity => trivial
  | and p q ihp ihq => exact ⟨ihp h.1, ihq h.2⟩
  | or p q ihp ihq => exact ⟨ihp h.1, ihq h.2⟩
  | not p ih => exact ih h
  | apply g => exact h
  | call es => trivial
  | host g => exact h

/-- Matches of a rule and of its renamed variant, in environments that are alike. -/
structure Match.Alike (base : Nat) (k k' : Env) (m m' : Match) : Prop where
  calls : m.rule.body.CallsOnly
  extend : k.Extends m.env
  extend' : k'.Extends m'.env
  variant : ∃ (σ : String → String) (N : Set String), Set.InjOn σ N ∧
    m.rule.body.Each (Term.Vars (Variable.Named N)) ∧ m'.rule.body = m.rule.body.rename σ ∧
    m.env.AlikeIn base σ N m'.env

variable {program program' : Program}

/-- The rules of a program and their variants are selected together. -/
theorem Program.select_variants (hvariants : List.Forall₂ Rule.IsVariant program program')
    (hcalls : program.CallsOnly) {g g' : Pattern} (h : k.Alike base k')
    (hgg' : List.Forall₂ (Term.Alike base) g g')
    (hg : Pattern.Each (Term.Vars fun v => k.declares v = true) g)
    (hg' : Pattern.Each (Term.Vars fun v => k'.declares v = true) g') :
    List.Forall₂ (Concur (Match.Alike base k k')) (program.select g k) (program'.select g' k') := by
  induction hvariants with
  | nil => exact .nil
  | @cons r r' rs rs' hvariant _ ih =>
    obtain ⟨σ, N, hσ, hcondition, hbody, rfl⟩ := hvariant
    have hrest := ih fun r hr => hcalls r (List.mem_cons_of_mem _ hr)
    have hmatch := Pattern.concur_matchGoal hσ h hcondition hgg' hg hg'
    rw [Program.select, Program.select, Rule.matchGoal, Rule.matchGoal, Rule.rename]
    rcases hmatch.cases with ⟨o, o', ho, ho', hoo'⟩ | ⟨f, hf, hf'⟩
    · cases hoo' with
      | none => simpa only [ho, ho'] using hrest
      | @some a b hab =>
        simp only [ho, ho']
        refine .cons (.ok ?_) hrest
        exact ⟨hcalls r List.mem_cons_self, (Pattern.matchGoal_wellFormed ho h.left).2.1,
          (Pattern.matchGoal_wellFormed ho' h.right).2.1, σ, N, hσ, hbody, rfl, hab⟩
    · simp only [hf, hf']
      exact .cons (.error f) .nil

/-- Definitions in the same place also have the properties of their preludes. -/
theorem Prelude.Shaped.with_each {A : Pattern → Pattern → Prop} {P P' : Term → Prop}
    {p p' : Prelude} (h : p.Shaped A p') (hp : p.Each P) (hp' : p'.Each P')
    (hdefinition : P (.keyword .definition)) (hdefinition' : P' (.keyword .definition)) :
    p.Shaped (fun g g' => A g g' ∧ Pattern.Each P g ∧ Pattern.Each P' g') p' := by
  induction h with
  | empty => exact .empty
  | define h => exact .define ⟨h, each_definedBy hdefinition hp, each_definedBy hdefinition' hp'⟩
  | both _ _ ihp ihq => exact .both (ihp hp.1 hp'.1) (ihq hp.2 hp'.2)

/-- The solutions of two applications are alike, each in the scope and with the bindings of the
environment it was found in. -/
def Env.Returns (base : Nat) (k k' a b : Env) : Prop :=
  a.Alike base b ∧ (k.Continues a ∧ a.locals = k.locals) ∧ k'.Continues b ∧ b.locals = k'.locals

/-- Environments stay alike in the rule when they are returned to. -/
theorem Env.AlikeIn.of_returns {a b : Env} (h : k.AlikeIn base σ N k')
    (hab : Env.Returns base k k' a b) : a.AlikeIn base σ N b := by
  obtain ⟨halike, ⟨hleft, hlocals⟩, hright, hlocals'⟩ := hab
  exact { halike with
    rule := hleft.scope.trans h.rule
    rule' := hright.scope.trans h.rule'
    bound := by rw [hlocals, hlocals']; exact h.bound }

/-- The applications of the two programs are in step wherever environments are alike. -/
def InStepApplied (base : Nat) (applied applied' : Pattern → Env → Search Item) : Prop :=
  ∀ g g' k k', k.Alike base k' → List.Forall₂ (Term.Alike base) g g' →
    Pattern.Each (Term.Vars fun v => k.declares v = true) g →
    Pattern.Each (Term.Vars fun v => k'.declares v = true) g' →
    InStep (Concur (Env.Returns base k k')) (applied g k) (applied' g' k')

section

variable {applied applied' : Pattern → Env → Search Item}

/-- A call of the rule and its renamed variant are explored in step. -/
theorem Goal.inStep_call_rename (happlied : InStepApplied base applied applied')
    (hσ : Set.InjOn σ N) (turns : Nat) {es : List Expr} (h : k.AlikeIn base σ N k')
    (hes : Expr.EachOf (Term.Vars (Variable.Named N)) es) :
    InStep (Concur (Env.AlikeIn base σ N)) ((Goal.call es).explore applied turns k)
      ((Goal.call (Expr.renameAll σ es)).explore applied' turns k') := by
  obtain ⟨x, x', hx, hx', hk, hterms, hprelude⟩ := Expr.flattenAll_rename hσ .empty h hes
  have hover : ∀ es, Expr.EachOf (Term.Over fun _ => True) es :=
    Expr.eachOf_of_forall fun _ _ _ => trivial
  obtain ⟨hin, hpre⟩ := Expr.flattenPhrase_within h.left k.over_univ (hover _) hx
  obtain ⟨hin', hpre'⟩ := Expr.flattenPhrase_within h.right k'.over_univ (hover _) hx'
  have happly : ∀ g g' a b, (List.Forall₂ (Term.Alike base) g g' ∧
      Pattern.Each (Term.Within (fun _ => True) x.env) g ∧
      Pattern.Each (Term.Within (fun _ => True) x'.env) g') →
      (a.AlikeIn base σ N b ∧ x.env.Continues a ∧ x'.env.Continues b) →
      InStep (Concur fun a b => a.AlikeIn base σ N b ∧ x.env.Continues a ∧ x'.env.Continues b)
        (applied g a) (applied' g' b) := by
    rintro g g' a b ⟨hgg', hg, hg'⟩ ⟨hab, ha, hb⟩
    have hstep := happlied g g' a b hab.toAlike hgg'
      (fun t ht v hv => ha.declared ((hg t ht).2 v hv))
      (fun t ht v hv => hb.declared ((hg' t ht).2 v hv))
    refine hstep.mono fun hij => hij.mono fun hreturns => ?_
    exact ⟨hab.of_returns hreturns, ha.trans hreturns.2.1.1, hb.trans hreturns.2.2.1⟩
  have hshaped := hprelude.with_each hpre hpre' (Term.within_keyword _) (Term.within_keyword _)
  rw [Goal.explore_call _ _ hx, Goal.explore_call _ _ hx', Goal.explore_flatPhrase,
    Goal.explore_flatPhrase]
  refine ((hshaped.inStep happly ⟨hk, .refl _, .refl _⟩).under fun a b hab =>
    happly _ _ a b ⟨hterms, hin, hin'⟩ hab).mono fun hij => hij.mono And.left

/-- The body of a rule and its renamed variant are explored in step. -/
theorem Goal.inStep_rename (happlied : InStepApplied base applied applied')
    (hσ : Set.InjOn σ N) (turns : Nat) {p : Goal} (hcalls : p.CallsOnly)
    (hp : p.Each (Term.Vars (Variable.Named N))) (h : k.AlikeIn base σ N k') :
    InStep (Concur (Env.AlikeIn base σ N)) (p.explore applied turns k)
      ((p.rename σ).explore applied' turns k') := by
  refine (Goal.shaped_rename σ hcalls hp).inStep (fun _ _ _ _ hfalse => hfalse.elim) ?_ h
  rintro es _ k k' ⟨rfl, hes⟩ h
  exact Goal.inStep_call_rename happlied hσ turns h hes

end

/-- Variants of rules have bodies of calls if the rules do. -/
theorem Program.CallsOnly.variants (hcalls : program.CallsOnly)
    (hvariants : List.Forall₂ Rule.IsVariant program program') : program'.CallsOnly := by
  induction hvariants with
  | nil => exact hcalls
  | cons hvariant _ ih =>
    obtain ⟨σ, _, _, _, _, rfl⟩ := hvariant
    intro r hr
    rcases List.mem_cons.mp hr with rfl | hr
    · exact (hcalls _ List.mem_cons_self).rename σ
    · exact ih (fun r hr => hcalls r (List.mem_cons_of_mem _ hr)) r hr

/-- Matches of a rule and of its variant have solutions in step: the bodies have like solutions,
and the return to the outer environments keeps them alike. -/
theorem Match.Alike.inStep_solutions {m m' : Match} (hm : m.Alike base k k' m')
    (h : k.Alike base k') (hfree : program.HostFree) (hfree' : program'.HostFree) {depth : Nat}
    (happlied : InStepApplied base (Selector.applications program.select depth)
      (Selector.applications program'.select depth)) :
    InStep (Concur fun a b => a.Alike base b ∧
        (a.locals = k.locals ∧ a.scope = k.scope) ∧ b.locals = k'.locals ∧ b.scope = k'.scope)
      (m.solutions (Goal.start (Selector.applications program.select depth) depth) k)
      (m'.solutions (Goal.start (Selector.applications program'.select depth) depth) k') := by
  obtain ⟨σ, N, hσ, hbody, hrename, hab⟩ := hm.variant
  have hbodyfree := hm.calls.hostFree
  have hbodyfree' := (hm.calls.rename σ).hostFree
  have hexplore := (Goal.inStep_rename happlied hσ depth hm.calls hbody hab).with_emits
  simp only [Match.solutions, hrename, Goal.start_eq_explore hbodyfree,
    Goal.start_eq_explore hbodyfree']
  refine hexplore.map ?_
  rintro i j ⟨hij, hi, hj⟩
  cases hij with
  | error f => exact .error f
  | @ok a b hab' =>
    have ha := (Program.continues_of_emits hfree hbodyfree hab.left hi).2
    have hb := (Program.continues_of_emits hfree' hbodyfree' hab.right hj).2
    exact hab'.toAlike.concur_restore h (hm.extend.trans ha.toExtends)
      (hm.extend'.trans hb.toExtends)

/-- At every depth the rules of a program and their variants are applied in step. -/
theorem Program.inStep_variants (hvariants : List.Forall₂ Rule.IsVariant program program')
    (hcalls : program.CallsOnly) (depth : Nat) :
    InStepApplied base (Selector.applications program.select depth)
      (Selector.applications program'.select depth) := by
  have hfree := hcalls.hostFree
  have hfree' := (hcalls.variants hvariants).hostFree
  induction depth with
  | zero => exact fun _ _ _ _ _ _ _ _ => .cut
  | succ depth ih =>
    intro g g' k k' h hgg' hg hg'
    have hstep : InStep (Concur fun a b => a.Alike base b ∧
        (a.locals = k.locals ∧ a.scope = k.scope) ∧ b.locals = k'.locals ∧ b.scope = k'.scope)
        (Selector.applications program.select (depth + 1) g k)
        (Selector.applications program'.select (depth + 1) g' k') := by
      rw [Selector.applications, Selector.applications]
      refine (inStep_ofList (Program.select_variants hvariants hcalls h hgg' hg hg')).bind ?_
      intro m m' hm
      cases hm with
      | error f => exact inStep_one (.error f)
      | ok hm => exact hm.inStep_solutions h hfree hfree' ih
    refine hstep.with_emits.mono ?_
    rintro i j ⟨hij, hi, hj⟩
    cases hij with
    | error f => exact .error f
    | @ok a b hab =>
      have ha := (Program.continues_of_emits_applications hfree h.left hi).2
      have hb := (Program.continues_of_emits_applications hfree' h.right hj).2
      exact .ok ⟨hab.1, ⟨ha, hab.2.1.1⟩, hb, hab.2.2.1⟩

end

/-- Renaming the variables of rules, rule by rule, changes neither the number nor the order of
the items of a search: each is the same fault, or a solution that tells the same of all
variables of the query. -/
theorem Goal.solve_variants {program program' : Program} {g : Pattern} {k : Env}
    (hvariants : List.Forall₂ Rule.IsVariant program program') (hcalls : program.CallsOnly)
    (hk : k.WellFormed) (hg : Pattern.Each (Term.Vars fun v => k.declares v = true) g)
    (depth limit : Nat) (choice : Nat → Bool) :
    Pulled.Alike (Concur k.TellsAs) ((Goal.apply g).solve program.select depth limit choice k)
      ((Goal.apply g).solve program'.select depth limit choice k) := by
  have hgg : List.Forall₂ (Term.Alike k.next) g g := List.forall₂_same.mpr fun t _ => .refl t
  have hstep := Program.inStep_variants hvariants hcalls depth g g k k hk.alike_refl hgg hg hg
  rw [Goal.solve_eq_take (p := .apply g) trivial, Goal.solve_eq_take (p := .apply g) trivial]
  refine InStep.take (hstep.mono fun hij => hij.mono ?_) choice limit
  rintro a b ⟨hab, ⟨ha, _⟩, hb, _⟩
  exact hab.tellsAs fun v hv => ⟨ha.declared hv, hb.declared hv⟩

namespace Sample

/-- The fathers, where the grandfather is called by the name of the grandchild and the other way
around, and the first rule uses one of these names, too. -/
def crossedFathers : Program := [
  .fact [.var (.named "g"), .keyword (.named "is"), .var (.named "g")],
  fatherFact "tom" "bob",
  fatherFact "bob" "ann",
  grandfatherRule.rename fun n => if n = "g" then "c" else "g"]

/-- The crossed rules are variants of the rules, each under its own renaming. -/
theorem crossedFathers_variants : List.Forall₂ Rule.IsVariant fathers crossedFathers := by
  have hfact : ∀ father child, (fatherFact father child).IsVariant (fatherFact father child) := by
    intro father child
    refine ⟨id, ∅, by simp [Set.InjOn], ?_, trivial, rfl⟩
    simp [fatherFact, Rule.fact, Pattern.Each, Term.Vars]
  refine .cons ⟨fun _ => "g", {"x"}, by simp, ?_, trivial, rfl⟩
    (.cons (hfact _ _) (.cons (hfact _ _) (.cons ⟨_, {"g", "c"}, ?_, ?_, ?_, rfl⟩ .nil)))
  · simp [Rule.fact, Pattern.Each, Term.Vars, Variable.Named]
  · simp [Set.InjOn]
  · simp [grandfatherRule, grandfatherOf, Pattern.Each, Term.Vars, Variable.Named]
  · simp [grandfatherRule, written, atom, Goal.Each, Expr.EachOf, Expr.Each, Term.Vars,
      Variable.Named]

/-- A query for the variable that the renamed rule calls the grandfather. -/
theorem crossedFathers_solve :
    Pulled.Alike (Concur (Env.declaring [.named "c"]).TellsAs)
      ((Goal.apply (grandfatherOf (.var (.named "c")) (.const (.atom "ann")))).solve
        fathers.select 4 5 alternate (.declaring [.named "c"]))
      ((Goal.apply (grandfatherOf (.var (.named "c")) (.const (.atom "ann")))).solve
        crossedFathers.select 4 5 alternate (.declaring [.named "c"])) ∧
    ((Goal.apply (grandfatherOf (.var (.named "c")) (.const (.atom "ann")))).solve
      fathers.select 4 5 alternate (.declaring [.named "c"])).items.length = 1 := by
  refine ⟨Goal.solve_variants crossedFathers_variants ?_ (Env.wellFormed_declaring ["c"]) ?_ 4 5
    alternate, by decide +kernel⟩
  · simp [Program.CallsOnly, fathers, fatherFact, Rule.fact, Goal.CallsOnly, grandfatherRule]
  · have hc : (Env.declaring [.named "c"]).declares (.named "c") = true := by decide
    simp [grandfatherOf, Pattern.Each, Term.Vars, hc]

end Sample

end Deduction
