import Deduction.Proofs.Answer
import Deduction.Proofs.Flattening
import Deduction.Proofs.Restoring

/-!
# Solutions continue their environment

A solution keeps the scope and the bindings of the environment it was found in, is well
formed with it, and adds knowledge only, however many rules were applied on the way.
Without host goals no constant comes from elsewhere than the program, the goal and the
environment.
-/

namespace Deduction

/-- A host goal whose answers arise from its environment by elementary updates. -/
def Host.IsModest (h : Host) : Prop :=
  ∀ k n t k', h.turn k n = some t → t.outcome = .ok (some k') → k.Evolves (fun _ => True) k'

namespace Program

variable {program : Program} {p : Goal} {k k' : Env}

/-- Solutions are well formed and continue the environment in which they were found. -/
theorem Solves.continues (h : program.Solves p k k') (hprogram : program.Hosts Host.IsModest)
    (hp : p.Hosts Host.IsModest) (hk : k.WellFormed) : k'.WellFormed ∧ k.Continues k' := by
  induction h with
  | truth => exact ⟨hk, .refl _⟩
  | and _ _ ihp ihq =>
    obtain ⟨hk₁, h₁⟩ := ihp hp.1 hk
    obtain ⟨hk₂, h₂⟩ := ihq hp.2 hk₁
    exact ⟨hk₂, h₁.trans h₂⟩
  | orLeft _ ih => exact ih hp.1 hk
  | orRight _ ih => exact ih hp.2 hk
  | not => exact ⟨hk, .refl _⟩
  | apply hr hm _ hrestore ih =>
    obtain ⟨hk₁, hmatch, _⟩ := Pattern.matchGoal_wellFormed hm hk
    obtain ⟨hk₂, hbody⟩ := ih (hprogram _ hr) hk₁
    have hextends := hmatch.trans hbody.toExtends
    exact ⟨Env.wellFormed_restore hk₂ hk (fun v => hextends.declared) hrestore,
      Env.continues_restore hk hextends hrestore⟩
  | call hx _ ih =>
    obtain ⟨hkx, hflat⟩ := Expr.flattenPhrase_wellFormed hx hk
    obtain ⟨hk', hgoal⟩ := ih ⟨Prelude.hosts_toGoal _ _, trivial⟩ hkx
    exact ⟨hk', hflat.trans hgoal⟩
  | host ht ho => exact (hp _ _ _ _ ht ho).wellFormed hk

/-- A solution knows no constant but those of the program, the goal and the environment. -/
theorem Solves.over {U : Constant → Prop} (h : program.Solves p k k')
    (hprogram : program.Each (Term.Over U)) (hfree : program.HostFree)
    (hp : p.Each (Term.Over U)) (hpfree : p.HostFree) (hk : k.WellFormed) (hU : k.Over U) :
    k'.Over U := by
  induction h with
  | truth => exact hU
  | and hp₁ _ ihp ihq =>
    have h₁ := hp₁.continues (hfree.hosts _) (Goal.HostFree.hosts hpfree.1 _) hk
    exact ihq hp.2 hpfree.2 h₁.1 (ihp hp.1 hpfree.1 hk hU)
  | orLeft _ ih => exact ih hp.1 hpfree.1 hk hU
  | orRight _ ih => exact ih hp.2 hpfree.2 hk hU
  | not => exact hU
  | apply hr hm _ hrestore ih =>
    obtain ⟨hk₁, _, _⟩ := Pattern.matchGoal_wellFormed hm hk
    have hU₁ := Pattern.over_of_matchGoal hU (hprogram _ hr).1 hp hm
    exact Env.over_restore (ih (hprogram _ hr).2 (hfree _ hr) hk₁ hU₁) hU hrestore
  | @call _ _ _ x hx _ ih =>
    obtain ⟨hkx, _⟩ := Expr.flattenPhrase_wellFormed hx hk
    obtain ⟨hterms, hprelude⟩ := Expr.flattenPhrase_within hk hU hp hx
    have hgoal : (Goal.and x.prelude.toGoal (.apply x.terms)).Each (Term.Over U) :=
      ⟨Prelude.each_toGoal hprelude, fun t ht => (hterms t ht).1⟩
    exact ih hgoal ⟨Prelude.hosts_toGoal _ _, trivial⟩ hkx
      ((Expr.flattenAll_evolves hx).over hU)
  | host => exact hpfree.elim

/-- What a search without host goals emits continues the environment. -/
theorem continues_of_emits (hfree : program.HostFree) (hp : p.HostFree) (hk : k.WellFormed)
    {depth turns : Nat}
    (h : Search.Emits (p.explore (Selector.applications program.select depth) turns k) (.ok k')) :
    k'.WellFormed ∧ k.Continues k' := by
  have hsolves : program.Solves p k k' := answers_of_emits h
  exact hsolves.continues (hfree.hosts _) (hp.hosts _) hk

/-- What an application of rules without host goals emits continues the environment. -/
theorem continues_of_emits_applications (hfree : program.HostFree) (hk : k.WellFormed)
    {depth : Nat} {g : Pattern}
    (h : Search.Emits (Selector.applications program.select depth g k) (.ok k')) :
    k'.WellFormed ∧ k.Continues k' := by
  have hsolves : program.Solves (.apply g) k k' := answers_of_emits_applications h
  exact hsolves.continues (hfree.hosts _) trivial hk

end Program

end Deduction
