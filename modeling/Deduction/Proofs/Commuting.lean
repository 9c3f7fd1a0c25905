import Deduction.Proofs.Explanation
import Deduction.Proofs.Framing
import Deduction.Proofs.Listing
import Deduction.Proofs.Representing
import Deduction.Proofs.Wrapping

/-!
# Conjunction commutes

The two orders of a conjunction find the same answers. They issue different numbers, link in
different directions and leave different variables behind, but a trace of one order with its
two parts exchanged is a trace of the other order, and it explains the same. So what is known
of the variables of the query is entailed both ways, and then it is the same: the constants of
the resolved variables, and which of the others stand for the same.

Which of several equal constants a variable is resolved with may depend on the order, so answers are
compared up to the equality of constants. What entails what is shown for stable constants, where
equal ones are the same; atoms as labels carry it over to every lawful set.
-/

namespace Deduction

open Search

namespace Env

/-- The same answer for the variables that `k` declares: equal constants for those that are
resolved, and which of the others stand for the same. -/
structure AnswersAs (k a b : Env) : Prop where
  values : ∀ v, k.declares v = true → ∃ x y, a.valueOf v = .ok x ∧ b.valueOf v = .ok y ∧
    Option.Rel (fun c d => c.Equals d) x y
  joined_iff : ∀ v w, k.declares v = true → k.declares w = true → a.valueOf v = .ok none →
    a.valueOf w = .ok none → (a.Joined v w ↔ b.Joined v w)

/-- What satisfies the first environment satisfies the second one, if it is changed at variables
that `k` does not declare. -/
def Entails (k a b : Env) : Prop := ∀ s, a.Satisfied s → ∃ s', b.Satisfied s' ∧ k.Agree s s'

variable {k a b : Env} {v w : Variable}

/-! ## Answers are determined by valuations -/

/-- There are more individuals than one. -/
private theorem exists_individual_ne (c : Constant) : ∃ g : Individual, (g : Constant) ≠ c := by
  by_cases hc : c = .atom ""
  · exact ⟨⟨.atom "a", trivial⟩, by rw [hc]; decide⟩
  · exact ⟨⟨.atom "", trivial⟩, fun h => hc h.symm⟩

/-- Constants that are entailed are known: otherwise the variable could stand for another. -/
theorem Entails.valueOf_eq (h : k.Entails a b) (ha : a.WellFormed)
    (hU : a.Over Constant.IsStable) (hdeclared : a.declares v = true) (hv : k.declares v = true)
    {c : Constant} (hb : b.valueOf v = .ok (some c)) : a.valueOf v = .ok (some c) := by
  obtain ⟨r, hr⟩ := ha.grounded v hdeclared
  obtain ⟨q, hq, hqc⟩ := exists_ends_of_valueOf hb
  obtain ⟨g, hg⟩ := exists_individual_ne c
  obtain ⟨s, hs, hagree⟩ := h _ (satisfied_settle ha hU fun _ => g)
  have hsv : (s v : Constant) = c := (hq.allows hs).2 c hqc
  rw [hagree v hv, settle_of_ends hr] at hsv
  rw [hr.valueOf_eq]
  obtain ⟨last, _ | d⟩ := r
  · exact absurd hsv hg
  · have hd := hU.statuses hr.get?_last
    exact congrArg (fun d => Except.ok (some d)) (hd.coe_individual.symm.trans hsv)

/-- Variables that stand for the same in what is entailed do so already: otherwise they could
stand for different individuals. -/
theorem Entails.joined (h : k.Entails a b) (ha : a.WellFormed) (hU : a.Over Constant.IsStable)
    (hv : k.declares v = true) (hw : k.declares w = true) (hav : a.valueOf v = .ok none)
    (haw : a.valueOf w = .ok none) (hb : b.Joined v w) : a.Joined v w := by
  obtain ⟨rv, hrv, hvalue⟩ := exists_ends_of_valueOf hav
  obtain ⟨rw', hrw, hvalue'⟩ := exists_ends_of_valueOf haw
  obtain ⟨q, q', hq, hq', hlast⟩ := hb
  refine (hrv.joined_iff hrw).mpr ?_
  by_contra hne
  obtain ⟨g, hg⟩ := exists_individual_ne (default : Individual)
  obtain ⟨s, hs, hagree⟩ := h _ (satisfied_settle ha hU fun u => if u = rv.last then g else default)
  have hsame : s v = s w := by
    rw [((root_eq_ok_iff.mp hq).allows hs).1, ((root_eq_ok_iff.mp hq').allows hs).1, hlast]
  rw [hagree v hv, hagree w hw, settle_of_ends hrv, settle_of_ends hrw, hvalue, hvalue'] at hsame
  simp only [if_true, Ne.symm hne, if_false] at hsame
  exact hg (congrArg Subtype.val hsame)

/-- Environments that entail one another on the variables of a query give the same answer. -/
theorem Entails.answersAs (h : k.Entails a b) (h' : k.Entails b a) (ha : a.WellFormed)
    (hb : b.WellFormed) (hUa : a.Over Constant.IsStable) (hUb : b.Over Constant.IsStable)
    (hka : k.Continues a) (hkb : k.Continues b) : k.AnswersAs a b := by
  have hvalue : ∀ v, k.declares v = true → b.valueOf v = a.valueOf v := by
    intro v hv
    obtain ⟨r, hr⟩ := ha.grounded v (hka.declared hv)
    obtain ⟨q, hq⟩ := hb.grounded v (hkb.declared hv)
    cases hrc : r.value with
    | some c =>
      have hknown : a.valueOf v = .ok (some c) := by rw [hr.valueOf_eq, hrc]
      rw [hknown, h'.valueOf_eq hb hUb (hkb.declared hv) hv hknown]
    | none =>
      cases hqc : q.value with
      | some c =>
        have hknown : b.valueOf v = .ok (some c) := by rw [hq.valueOf_eq, hqc]
        rw [hknown, h.valueOf_eq ha hUa (hka.declared hv) hv hknown]
      | none => rw [hr.valueOf_eq, hq.valueOf_eq, hrc, hqc]
  refine ⟨fun v hv => ?_, fun v w hv hw hav haw => ⟨fun hjoined => ?_, fun hjoined => ?_⟩⟩
  · obtain ⟨r, hr⟩ := ha.grounded v (hka.declared hv)
    refine ⟨r.value, r.value, hr.valueOf_eq, (hvalue v hv).trans hr.valueOf_eq, ?_⟩
    cases r.value with
    | none => exact .none
    | some c => exact .some (.refl c)
  · exact h'.joined hb hUb hv hw ((hvalue v hv).trans hav) ((hvalue w hw).trans haw) hjoined
  · exact h.joined ha hUa hv hw hav haw hjoined

end Env

/-! ## Exchanging the parts of a trace -/

/-- The trace of a conjunction in the other order. -/
def Trace.swap : Trace → Trace
  | pair a b => pair b a
  | leaf => leaf
  | left a => left a
  | right a => right a
  | rule n a => rule n a
  | call a => call a

/-- Exchanging the parts twice gives the trace itself. -/
theorem Trace.swap_involutive : Function.Involutive swap := fun T => by cases T <;> rfl

section

variable {program : Program} {p q : Goal} {k k' : Env} {T : Trace}

section

variable (hpure : program.IsPure) (hstable : program.Each (Term.Over Constant.IsStable))

include hpure hstable

/-- What satisfies a solution is admitted by a solution of the other order, along the trace with
its parts exchanged. -/
theorem Program.Runs.exists_swap (h : program.Runs T (.and p q) k k') (hp : p.Positive k)
    (hq : q.Positive k) (hk : k.WellFormed) (hU : k.Over Constant.IsStable) {s : Valuation}
    (hs : k'.Satisfied s) : ∃ k'' s', program.Runs T.swap (.and q p) k k'' ∧
      k''.Satisfied s' ∧ k.Agree s s' := by
  have hpq : (Goal.and p q).Positive k := ⟨hp, hq⟩
  have hqp : (Goal.and q p).Positive k := ⟨hq, hp⟩
  obtain ⟨_, hU', hcontinues⟩ := h.of_positive hpure hstable hpq hk hU
  have hmodels := hs.models_boundValues hU'
  have hexplains := h.explains hpure hstable hpq hk hU hmodels
  have hswapped : program.Explains T.swap (.and q p) s (k'.boundValues s) := by
    cases hexplains with
    | and ha hb => exact .and hb ha
  obtain ⟨k'', s', hruns, hrefines⟩ := hswapped.exists_runs hpure hstable hqp
    ⟨hk, hU, hmodels.of_continues hcontinues⟩
  exact ⟨k'', s', hruns, hrefines.admits.models.satisfied, hrefines.agree⟩

/-- The solutions along a trace and along the one with its parts exchanged answer the same. -/
theorem Program.Runs.answersAs_swap {k'' : Env} (h : program.Runs T (.and p q) k k')
    (h' : program.Runs T.swap (.and q p) k k'') (hp : p.Positive k) (hq : q.Positive k)
    (hk : k.WellFormed) (hU : k.Over Constant.IsStable) : k.AnswersAs k' k'' := by
  obtain ⟨hk', hU', hcontinues⟩ := h.of_positive hpure hstable ⟨hp, hq⟩ hk hU
  obtain ⟨hk'', hU'', hcontinues'⟩ := h'.of_positive hpure hstable ⟨hq, hp⟩ hk hU
  have hforth : k.Entails k' k'' := by
    intro s hs
    obtain ⟨a, s', hruns, hs', hagree⟩ := h.exists_swap hpure hstable hp hq hk hU hs
    obtain rfl := hruns.unique h'
    exact ⟨s', hs', hagree⟩
  have hback : k.Entails k'' k' := by
    intro s hs
    obtain ⟨a, s', hruns, hs', hagree⟩ := h'.exists_swap hpure hstable hq hp hk hU hs
    rw [Trace.swap_involutive T] at hruns
    obtain rfl := hruns.unique h
    exact ⟨s', hs', hagree⟩
  exact hforth.answersAs hback hk' hk'' hU' hU'' hcontinues hcontinues'

/-- A trace of one order leads to a solution of the other order. -/
theorem Program.Runs.exists_runs_swap (h : program.Runs T (.and p q) k k') (hp : p.Positive k)
    (hq : q.Positive k) (hk : k.WellFormed) (hU : k.Over Constant.IsStable) :
    ∃ k'', program.Runs T.swap (.and q p) k k'' := by
  obtain ⟨hk', hU', _⟩ := h.of_positive hpure hstable ⟨hp, hq⟩ hk hU
  obtain ⟨k'', _, hruns, _⟩ := h.exists_swap hpure hstable hp hq hk hU
    (Env.satisfied_settle hk' hU' default)
  exact ⟨k'', hruns⟩

end

/-! ## Queries -/

/-- Built from truth, falsity, applications and calls by conjunction and disjunction. -/
def Goal.IsPositive : Goal → Prop
  | truth | falsity | apply _ | call _ => True
  | and p q | or p q => p.IsPositive ∧ q.IsPositive
  | not _ | host _ => False

/-- A positive goal asks no host. -/
theorem Goal.IsPositive.hostFree (h : p.IsPositive) : p.HostFree := by
  induction p with
  | truth => trivial
  | falsity => trivial
  | and p q ihp ihq => exact ⟨ihp h.1, ihq h.2⟩
  | or p q ihp ihq => exact ⟨ihp h.1, ihq h.2⟩
  | not p _ => exact h.elim
  | apply g => trivial
  | call es => trivial
  | host g => exact h

/-- The scope of a rule in which every variable of the query is bound to itself. -/
def Env.mirrored (k : Env) : Env := k.framed k.statuses.keys

/-- The mirrored scope sees the query as the query is. -/
theorem Env.mirrors_mirrored (hquery : k.scope = .query) :
    k.Mirrors k.statuses.keys k.mirrored :=
  mirrors_framed hquery fun _ hv => VarMap.mem_keys.mp hv

/-- The mirrored scope is well formed with the query. -/
theorem Env.WellFormed.mirrored (hk : k.WellFormed) : k.mirrored.WellFormed :=
  wellFormed_framed hk fun _ hv => VarMap.mem_keys.mp hv

/-- A goal of the query is positive there. -/
theorem Goal.IsPositive.positive_mirrored (h : p.IsPositive) (hquery : k.scope = .query)
    (hp : p.Each (Term.Within Constant.IsStable k)) : p.Positive k.mirrored := by
  have hmirrors := k.mirrors_mirrored hquery
  induction p with
  | truth => trivial
  | falsity => trivial
  | and p q ihp ihq => exact ⟨ihp h.1 hp.1, ihq h.2 hp.2⟩
  | or p q ihp ihq => exact ⟨ihp h.1 hp.1, ihq h.2 hp.2⟩
  | not p _ => exact h.elim
  | apply g =>
    exact fun t ht => ⟨(hp t ht).1, fun v hv => (hmirrors.declares_eq v).trans ((hp t ht).2 v hv)⟩
  | call es =>
    refine ⟨hmirrors.rule, hp.mono fun t ht => ht.1, hp.mono fun t ht v hv _ => ?_⟩
    exact ⟨_, hmirrors.own v (VarMap.mem_keys.mpr (ht.2 v hv))⟩
  | host g => exact h

/-- The environment knows what the goal leads to along the trace, when the query is taken for
the scope of a rule. -/
def Goal.Traced (program : Program) (p : Goal) (k : Env) (T : Trace) (a : Env) : Prop :=
  ∃ b, program.Runs T p k.mirrored b ∧ a.KnowsAs b

/-- An exhausted search of a query lists the traces of its goal. -/
theorem Goal.IsPositive.enumerates (hp : p.IsPositive) (hpure : program.IsPure)
    (hstable : program.Each (Term.Over Constant.IsStable)) (hk : k.WellFormed)
    (hU : k.Over Constant.IsStable) (hquery : k.scope = .query)
    (hwithin : p.Each (Term.Within Constant.IsStable k)) {depth limit : Nat}
    {choice : Nat → Bool}
    (hended : (p.solve program.select depth limit choice k).ended = true) :
    Enumerates (p.Traced program k) (p.solve program.select depth limit choice k).items := by
  have hfree := hpure.callsOnly.hostFree
  have hvars : p.Each (Term.Vars (· ∈ k.statuses.keys)) :=
    hwithin.mono fun t ht v hv => VarMap.mem_keys.mpr (ht.2 v hv)
  have hmirrors := k.mirrors_mirrored hquery
  have hstep := hmirrors.inStep_explore hk hfree depth depth hp.hostFree hvars
  rw [Goal.solve_eq_take hp.hostFree] at hended ⊢
  obtain ⟨hitems, hsame, _⟩ := InStep.take (s := fun _ => p.explore
      (Selector.applications program.select depth) depth k) (t := fun _ => p.explore
      (Selector.applications program.select depth) depth k.mirrored) hstep choice limit
  have hlists := (Program.listed_applications hpure hstable depth).explore hpure hstable depth
    (hp.positive_mirrored hquery hwithin) hk.mirrored (Env.over_framed hU)
  have hcompletes := completes_of_take_ended (hsame.trans hended)
  refine (hlists _ hcompletes).of_concur (hitems.imp fun i j hij => hij.mono fun hab => ?_)
  exact hab.1.toKnowsAs

/-- What an environment answers depends on what it knows. -/
theorem Env.AnswersAs.of_knowsAs {a a' b b' : Env} (h : k.AnswersAs a b) (ha : a'.KnowsAs a)
    (hb : b'.KnowsAs b) : k.AnswersAs a' b' := by
  obtain ⟨statuses, locals, scope, next⟩ := a
  obtain ⟨statuses', locals', scope', next'⟩ := b
  obtain rfl : statuses = a'.statuses := ha.statuses
  obtain rfl : statuses' = b'.statuses := hb.statuses
  exact ⟨h.values, h.joined_iff⟩

/-- What is answered is about the declared variables only. -/
theorem Env.AnswersAs.of_declares_eq {a b : Env} (h : k.AnswersAs a b)
    (hk : ∀ v, k.declares v = k'.declares v) : k'.AnswersAs a b := by
  refine ⟨fun v hv => h.values v ((hk v).trans hv), fun v w hv hw => ?_⟩
  exact h.joined_iff v w ((hk v).trans hv) ((hk w).trans hw)

section

variable (hpure : program.IsPure) (hstable : program.Each (Term.Over Constant.IsStable))
  (hk : k.WellFormed) (hU : k.Over Constant.IsStable) (hquery : k.scope = .query)
  (hp : p.IsPositive) (hq : q.IsPositive) (hpwithin : p.Each (Term.Within Constant.IsStable k))
  (hqwithin : q.Each (Term.Within Constant.IsStable k))

include hpure hstable hk hU hquery hp hq hpwithin hqwithin

/-- A trace of one order leads to something known in the other order, too. -/
theorem Goal.Traced.exists_swap {a : Env} (h : (Goal.and p q).Traced program k T a) :
    ∃ a', (Goal.and q p).Traced program k T.swap a' := by
  obtain ⟨b, hb, _⟩ := h
  obtain ⟨b', hb'⟩ := hb.exists_runs_swap hpure hstable (hp.positive_mirrored hquery hpwithin)
    (hq.positive_mirrored hquery hqwithin) hk.mirrored (Env.over_framed hU)
  exact ⟨b', b', hb', rfl, rfl⟩

/-- Both orders answer the same along corresponding traces. -/
theorem Goal.Traced.answersAs_swap {a a' : Env} (h : (Goal.and p q).Traced program k T a)
    (h' : (Goal.and q p).Traced program k T.swap a') : k.AnswersAs a a' := by
  obtain ⟨b, hb, hab⟩ := h
  obtain ⟨b', hb', hab'⟩ := h'
  have hanswers := hb.answersAs_swap hpure hstable hb' (hp.positive_mirrored hquery hpwithin)
    (hq.positive_mirrored hquery hqwithin) hk.mirrored (Env.over_framed hU)
  exact (hanswers.of_knowsAs hab hab').of_declares_eq (k.mirrors_mirrored hquery).declares_eq

end

end

/-- Over stable constants, the searches for both orders of a conjunction bring no fault if they come
to their ends, and but for their order the solutions give the same answers. -/
theorem Goal.IsPositive.exists_perm_and {program : Program} {p q : Goal} {k : Env}
    {depth depth' limit limit' : Nat} {choice choice' : Nat → Bool} (hpure : program.IsPure)
    (hstable : program.Each (Term.Over Constant.IsStable)) (hk : k.WellFormed)
    (hU : k.Over Constant.IsStable) (hquery : k.scope = .query) (hp : p.IsPositive)
    (hq : q.IsPositive) (hpwithin : p.Each (Term.Within Constant.IsStable k))
    (hqwithin : q.Each (Term.Within Constant.IsStable k))
    (hended : ((Goal.and p q).solve program.select depth limit choice k).ended = true)
    (hended' : ((Goal.and q p).solve program.select depth' limit' choice' k).ended = true) :
    ∃ solutions solutions' reordered : List Env,
      ((Goal.and p q).solve program.select depth limit choice k).items = solutions.map .ok ∧
      ((Goal.and q p).solve program.select depth' limit' choice' k).items =
        solutions'.map .ok ∧
      List.Forall₂ k.AnswersAs solutions reordered ∧ reordered.Perm solutions' := by
  have hpq : (Goal.and p q).IsPositive := ⟨hp, hq⟩
  have hqp : (Goal.and q p).IsPositive := ⟨hq, hp⟩
  have hleft := hpq.enumerates hpure hstable hk hU hquery ⟨hpwithin, hqwithin⟩ hended
  have hright := hqp.enumerates hpure hstable hk hU hquery ⟨hqwithin, hpwithin⟩ hended'
  exact hleft.exists_perm hright Trace.swap_involutive
    (fun T a h => h.exists_swap hpure hstable hk hU hquery hp hq hpwithin hqwithin)
    (fun T a h => h.exists_swap hpure hstable hk hU hquery hq hp hqwithin hpwithin)
    (fun T a a' h h' => h.answersAs_swap hpure hstable hk hU hquery hp hq hpwithin hqwithin h')

/-! ## Lawful sets of constants -/

section

variable {U : Constant → Prop} {f : Constant → Constant}

/-- A pure body stays pure with labels. -/
theorem Goal.IsPure.label {p : Goal} (h : p.IsPure) : (p.label f).IsPure := by
  induction p with
  | truth => trivial
  | falsity => trivial
  | and p q ihp ihq => exact ⟨ihp h.1, ihq h.2⟩
  | or p q ihp ihq => exact ⟨ihp h.1, ihq h.2⟩
  | not p _ => exact h.elim
  | apply g => exact h.elim
  | call es => trivial
  | host g => exact h

/-- A pure program stays pure with labels. -/
theorem Program.IsPure.label {program : Program} (h : program.IsPure) :
    (program.label f).IsPure := by
  constructor
  · intro r hr
    obtain ⟨r₀, hr₀, rfl⟩ := List.mem_map.mp hr
    exact (h.bodies r₀ hr₀).label
  · simp only [Program.each_label_iff, Term.vars_label_iff]
    exact h.named

/-- A positive goal stays positive with labels. -/
theorem Goal.IsPositive.label {p : Goal} (h : p.IsPositive) : (p.label f).IsPositive := by
  induction p with
  | truth => trivial
  | falsity => trivial
  | and p q ihp ihq => exact ⟨ihp h.1, ihq h.2⟩
  | or p q ihp ihq => exact ⟨ihp h.1, ihq h.2⟩
  | not p _ => exact h.elim
  | apply g => trivial
  | call es => trivial
  | host g => exact h

/-- What is equal with labels is equal without them. -/
theorem Constant.Faithful.rel_of_map (hf : Faithful f U) {x y : Option Constant}
    (hx : ∀ c, x = some c → U c) (hy : ∀ d, y = some d → U d)
    (h : Option.Rel (fun c d => c.Equals d) (x.map f) (y.map f)) :
    Option.Rel (fun c d => c.Equals d) x y := by
  cases x with
  | none =>
    cases y with
    | none => exact .none
    | some d => cases h
  | some c =>
    cases y with
    | none => cases h
    | some d =>
      cases h with
      | some h => exact .some ((hf c d (hx c rfl) (hy d rfl)).symm.trans h)

namespace Env

variable {k a a' b b' : Env}

/-- Where labels give the same answer, the constants that they stand for do so, too. -/
theorem AnswersAs.of_label (h : (k.label f).AnswersAs a' b') (hf : Constant.Faithful f U)
    (ha : a.Labelled f U a') (hb : b.Labelled f U b') : k.AnswersAs a b := by
  obtain ⟨_, hUa, rfl⟩ := ha
  obtain ⟨_, hUb, rfl⟩ := hb
  refine ⟨fun v hv => ?_, fun v w hv hw hav haw => ?_⟩
  · obtain ⟨_, _, hx, hy, hxy⟩ := h.values v ((declares_label f k v).trans hv)
    obtain ⟨x, hax, rfl⟩ := exists_valueOf_of_label hx
    obtain ⟨y, hby, rfl⟩ := exists_valueOf_of_label hy
    refine ⟨x, y, hax, hby, hf.rel_of_map (fun c hc => ?_) (fun d hd => ?_) hxy⟩
    · exact hUa.of_valueOf (hc ▸ hax)
    · exact hUb.of_valueOf (hd ▸ hby)
  · have hunresolved : ∀ u, a.valueOf u = .ok none → (a.label f).valueOf u = .ok none := by
      intro u hu
      rw [valueOf_label, hu]
      rfl
    rw [← joined_label_iff (f := f), ← joined_label_iff (f := f) (k := b)]
    exact h.joined_iff v w ((declares_label f k v).trans hv) ((declares_label f k w).trans hw)
      (hunresolved v hav) (hunresolved w haw)

/-- Solutions that are answered alike with labels are answered alike in the same order. -/
theorem Labelled.exists_perm {solutions solutions' labels labels' reordered : List Env}
    (hf : Constant.Faithful f U) (h : List.Forall₂ (Labelled f U) solutions labels)
    (h' : List.Forall₂ (Labelled f U) solutions' labels')
    (hanswers : List.Forall₂ (k.label f).AnswersAs labels reordered)
    (hperm : reordered.Perm labels') :
    ∃ reordered', List.Forall₂ k.AnswersAs solutions reordered' ∧
      reordered'.Perm solutions' := by
  obtain ⟨reordered', hreordered, hperm'⟩ := List.perm_comp_forall₂ hperm h'.flip
  refine ⟨reordered', ?_, hperm'⟩
  have hmixed : List.Forall₂ (fun a b' => ∃ a', a.Labelled f U a' ∧ (k.label f).AnswersAs a' b')
      solutions reordered :=
    forall₂_of_common (fun a' a b' ha hanswer => ⟨a', ha, hanswer⟩) h.flip hanswers
  refine forall₂_of_common ?_ hmixed.flip hreordered
  rintro b' a b ⟨a', ha, hanswer⟩ hb
  exact hanswer.of_label hf ha hb

end Env

end

/-- Over any lawful set of constants, if the searches for both orders of a conjunction come to their
ends, they bring equally many solutions and no fault, and but for their order the solutions give the
same answers. -/
theorem Goal.solve_and_comm {U : Constant → Prop} (hlawful : Constant.Lawful U)
    {program : Program} {p q : Goal} {k : Env} {depth depth' limit limit' : Nat}
    {choice choice' : Nat → Bool} (hpure : program.IsPure)
    (hprogram : program.Each (Term.Over U)) (hk : k.WellFormed) (hU : k.Over U)
    (hquery : k.scope = .query) (hp : p.IsPositive) (hq : q.IsPositive)
    (hpwithin : p.Each (Term.Within U k)) (hqwithin : q.Each (Term.Within U k))
    (hended : ((Goal.and p q).solve program.select depth limit choice k).ended = true)
    (hended' : ((Goal.and q p).solve program.select depth' limit' choice' k).ended = true) :
    ∃ solutions solutions' reordered : List Env,
      ((Goal.and p q).solve program.select depth limit choice k).items = solutions.map .ok ∧
      ((Goal.and q p).solve program.select depth' limit' choice' k).items =
        solutions'.map .ok ∧
      solutions.length = solutions'.length ∧
      List.Forall₂ k.AnswersAs solutions reordered ∧ reordered.Perm solutions' := by
  obtain ⟨f, hatoms, hf⟩ := hlawful.exists_labels
  have hstable : ∀ c, (f c).IsStable := by
    intro c
    obtain ⟨name, hname⟩ := hatoms c
    rw [hname]
    trivial
  have hfree := hpure.callsOnly.hostFree
  have hpover : p.Each (Term.Over U) := hpwithin.mono fun t ht => ht.1
  have hqover : q.Each (Term.Over U) := hqwithin.mono fun t ht => ht.1
  obtain ⟨hitems, hsame, _⟩ := Goal.solve_label hfree hprogram hf (p := .and p q)
    ⟨hp.hostFree, hq.hostFree⟩ ⟨hpover, hqover⟩ hk hU
  obtain ⟨hitems', hsame', _⟩ := Goal.solve_label hfree hprogram hf (p := .and q p)
    ⟨hq.hostFree, hp.hostFree⟩ ⟨hqover, hpover⟩ hk hU
  obtain ⟨labels, labels', reordered, hlabels, hlabels', hanswers, hperm⟩ :=
    Goal.IsPositive.exists_perm_and (hpure.label (f := f))
      (Program.each_label_iff.mpr (Program.each_of_forall (Term.over_label hstable) program))
      (hk.label f) (Env.over_label hstable k) hquery hp.label hq.label
      (Goal.each_label_iff.mpr (hpwithin.mono fun t ht => ht.label hstable))
      (Goal.each_label_iff.mpr (hqwithin.mono fun t ht => ht.label hstable))
      (hsame.trans hended) (hsame'.trans hended')
  rw [Goal.label_and, hlabels] at hitems
  rw [Goal.label_and, hlabels'] at hitems'
  obtain ⟨solutions, hsolutions, hrel⟩ := Concur.exists_solutions hitems
  obtain ⟨solutions', hsolutions', hrel'⟩ := Concur.exists_solutions hitems'
  obtain ⟨reordered', hreordered, hperm'⟩ :=
    Env.Labelled.exists_perm hf hrel hrel' hanswers hperm
  exact ⟨solutions, solutions', reordered', hsolutions, hsolutions',
    hreordered.length_eq.trans hperm'.length_eq, hreordered, hperm'⟩

namespace Sample

/-- The query for the three variables. -/
def threeUnknowns : Env := .declaring (["x", "y", "z"].map .named)

/-- A text of its own that reads tom. -/
def tomAs (object : Nat) : Constant := .value (.caseless object "tom")

/-- Everything is the same as itself, pairs, and two texts that read the same. -/
def pairingTexts : Program := pairing ++ [
  .fact [.keyword (.named "title"), .const (tomAs 0)],
  .fact [.keyword (.named "name"), .const (tomAs 1)]]

/-- The two variables are a pair, and the first one is the title. -/
def pairedTitle : Goal :=
  .and paired (.apply [.keyword (.named "title"), .var (.named "x")])

/-- The second variable is the third one, or it is the name. -/
def sameOrName : Goal :=
  .or (.call [.term (.keyword (.named "same")), written "y", written "z"])
    (.apply [.keyword (.named "name"), .var (.named "y")])

/-- The program combines calls and facts only. -/
theorem isPure_pairingTexts : pairingTexts.IsPure := by
  constructor
  · simp [pairingTexts, pairing, Rule.fact, Goal.IsPure]
  · simp [pairingTexts, pairing, written, Rule.fact, Program.Each, Pattern.Each, Goal.Each,
      Expr.EachOf, Expr.Each, Term.Vars, Variable.IsIssued, Variable.id?]

/-- All its constants are atoms or nonempty texts. -/
theorem over_pairingTexts : pairingTexts.Each (Term.Over CaselessWord) := by
  simp [pairingTexts, pairing, tomAs, written, Rule.fact, Program.Each, Pattern.Each, Goal.Each,
    Expr.EachOf, Expr.Each, Term.Over, CaselessWord.atom, CaselessWord.text]

/-- The first goal asks about variables of the query. -/
theorem pairedTitle_within : pairedTitle.Each (Term.Within CaselessWord threeUnknowns) := by
  simp [pairedTitle, paired, threeUnknowns, Goal.Each, Pattern.Each, Term.within_keyword,
    Term.within_var, Env.declares_iff, Env.declaring, VarMap.get?_constant]

/-- The second goal asks about variables of the query. -/
theorem sameOrName_within : sameOrName.Each (Term.Within CaselessWord threeUnknowns) := by
  simp [sameOrName, threeUnknowns, written, Goal.Each, Pattern.Each, Expr.EachOf, Expr.Each,
    Term.within_keyword, Term.within_var, Env.declares_iff, Env.declaring, VarMap.get?_constant]

/-- What the items say about a variable. -/
def told (v : Variable) (items : List Item) : List (Except Fault (Option Constant)) :=
  items.map fun i => i.bind (·.valueOf v)

/-- The two orders find different texts, which are equal, and answer the same. -/
theorem paired_and_comm :
    told (.named "x") ((Goal.and pairedTitle sameOrName).solve pairingTexts.select 2 9 alternate
        threeUnknowns).items = [.ok (some (tomAs 0)), .ok (some (tomAs 0))] ∧
    told (.named "x") ((Goal.and sameOrName pairedTitle).solve pairingTexts.select 2 9 alternate
        threeUnknowns).items = [.ok (some (tomAs 0)), .ok (some (tomAs 1))] ∧
    ∃ solutions solutions' reordered : List Env,
      ((Goal.and pairedTitle sameOrName).solve pairingTexts.select 2 9 alternate
        threeUnknowns).items = solutions.map .ok ∧
      ((Goal.and sameOrName pairedTitle).solve pairingTexts.select 2 9 alternate
        threeUnknowns).items = solutions'.map .ok ∧
      solutions.length = solutions'.length ∧
      List.Forall₂ threeUnknowns.AnswersAs solutions reordered ∧ reordered.Perm solutions' := by
  have hended : ((Goal.and pairedTitle sameOrName).solve pairingTexts.select 2 9 alternate
      threeUnknowns).ended = true := by decide +kernel
  have hended' : ((Goal.and sameOrName pairedTitle).solve pairingTexts.select 2 9 alternate
      threeUnknowns).ended = true := by decide +kernel
  exact ⟨by decide +kernel, by decide +kernel, Goal.solve_and_comm lawful_caselessWord
    isPure_pairingTexts over_pairingTexts (Env.wellFormed_declaring ["x", "y", "z"])
    (Env.over_declaring _ _) rfl ⟨trivial, trivial⟩ ⟨trivial, trivial⟩ pairedTitle_within
    sameOrName_within hended hended'⟩

end Sample

end Deduction
