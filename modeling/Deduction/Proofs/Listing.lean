import Deduction.Proofs.Completeness
import Deduction.Proofs.InStep
import Deduction.Proofs.Trace

/-!
# Exhausted searches list all traces

A search without negation that was pulled to its end has listed every trace along which its
goal can be solved, and each of them once. Each combinator of searches lists what its parts
list; the rules that match a pattern are told apart by their index in the program.
-/

namespace Deduction

open Search

/-! ## Related lists -/

/-- Two lists that are related to a third one are related to one another. -/
theorem forall₂_of_common {α β γ : Type} {P : α → β → Prop} {Q : α → γ → Prop}
    {R : β → γ → Prop} (hR : ∀ a b c, P a b → Q a c → R b c) {as : List α} {bs : List β}
    {cs : List γ} (hb : List.Forall₂ P as bs) (hc : List.Forall₂ Q as cs) :
    List.Forall₂ R bs cs := by
  induction hb generalizing cs with
  | nil => cases hc; exact .nil
  | cons hab _ ih =>
    cases hc with
    | cons hac hcs => exact .cons (hR _ _ _ hab hac) (ih hcs)

/-- Items that are solutions can be listed as such. -/
theorem exists_solutions_of_forall₂ {α : Type} {R : α → Env → Prop} {as : List α}
    {items : List Item} (h : List.Forall₂ (fun a i => ∃ k, i = .ok k ∧ R a k) as items) :
    ∃ solutions : List Env, items = solutions.map .ok ∧ List.Forall₂ R as solutions := by
  induction h with
  | nil => exact ⟨[], rfl, .nil⟩
  | cons hi _ ih =>
    obtain ⟨k, rfl, hk⟩ := hi
    obtain ⟨solutions, rfl, hsolutions⟩ := ih
    exact ⟨k :: solutions, rfl, .cons hk hsolutions⟩

/-- Items that concur with solutions are solutions. -/
theorem Concur.exists_solutions {R : Env → Env → Prop} {items : List Item} {solutions : List Env}
    (h : List.Forall₂ (Concur R) items (solutions.map .ok)) :
    ∃ solutions', items = solutions'.map .ok ∧ List.Forall₂ R solutions' solutions := by
  rw [List.forall₂_map_right_iff] at h
  have hitems : List.Forall₂ (fun b i => ∃ a, i = .ok a ∧ R a b) solutions items :=
    h.flip.imp fun b i hi => by
      cases hi with
      | ok hab => exact ⟨_, rfl, hab⟩
  obtain ⟨solutions', rfl, hrel⟩ := exists_solutions_of_forall₂ hitems
  exact ⟨solutions', rfl, hrel.flip⟩

/-! ## Lists of what traces lead to -/

/-- The items are what the traces with the property lead to, one item for each trace. -/
def Enumerates (V : Trace → Env → Prop) (items : List Item) : Prop :=
  ∃ traces : List Trace, traces.Nodup ∧
    List.Forall₂ (fun T i => ∃ k, i = .ok k ∧ V T k) traces items ∧ ∀ T k, V T k → T ∈ traces

namespace Enumerates

variable {V V' : Trace → Env → Prop} {items items' : List Item}

/-- What is listed depends on which traces lead to what. -/
theorem congr (h : Enumerates V items) (hV : ∀ T k, V T k ↔ V' T k) : Enumerates V' items := by
  obtain rfl : V = V' := funext fun T => funext fun k => propext (hV T k)
  exact h

/-- The empty list is that of no trace. -/
theorem nil (hV : ∀ T k, ¬ V T k) : Enumerates V [] :=
  ⟨[], .nil, .nil, fun T k h => (hV T k h).elim⟩

/-- A single solution is that of a single trace. -/
theorem one (T : Trace) (k : Env) : Enumerates (fun T' k' => T' = T ∧ k' = k) [.ok k] :=
  ⟨[T], List.nodup_singleton T, .cons ⟨k, rfl, rfl, rfl⟩ .nil, fun _ _ h => by simp [h.1]⟩

/-- The order of the items does not matter. -/
theorem perm (h : Enumerates V items) (hperm : items'.Perm items) : Enumerates V items' := by
  obtain ⟨traces, hnodup, hitems, hall⟩ := h
  obtain ⟨traces', hperm', hitems'⟩ := List.perm_comp_forall₂ hperm hitems.flip
  exact ⟨_, hitems'.nodup_iff.mpr hnodup, hperm'.flip,
    fun T k hT => hitems'.mem_iff.mpr (hall T k hT)⟩

private theorem exists_of_mem {traces : List Trace}
    (h : List.Forall₂ (fun T i => ∃ k, i = .ok k ∧ V T k) traces items) {T : Trace}
    (hT : T ∈ traces) : ∃ k, V T k := by
  induction h with
  | nil => cases hT
  | cons hi _ ih =>
    rcases List.mem_cons.mp hT with rfl | hT
    · obtain ⟨k, _, hk⟩ := hi
      exact ⟨k, hk⟩
    · exact ih hT

/-- Two lists of different traces are joined to the list of both. -/
theorem append (h : Enumerates V items) (h' : Enumerates V' items')
    (hne : ∀ T k k', V T k → ¬ V' T k') :
    Enumerates (fun T k => V T k ∨ V' T k) (items ++ items') := by
  obtain ⟨traces, hnodup, hitems, hall⟩ := h
  obtain ⟨traces', hnodup', hitems', hall'⟩ := h'
  refine ⟨traces ++ traces', List.nodup_append.mpr ⟨hnodup, hnodup', ?_⟩, ?_, ?_⟩
  · rintro T hT _ hT' rfl
    obtain ⟨k, hk⟩ := exists_of_mem hitems hT
    obtain ⟨k', hk'⟩ := exists_of_mem hitems' hT'
    exact hne T k k' hk hk'
  · refine List.rel_append ?_ ?_
    · exact hitems.imp fun T i ⟨k, hi, hk⟩ => ⟨k, hi, Or.inl hk⟩
    · exact hitems'.imp fun T i ⟨k, hi, hk⟩ => ⟨k, hi, Or.inr hk⟩
  · rintro T k (hk | hk)
    · exact List.mem_append_left _ (hall T k hk)
    · exact List.mem_append_right _ (hall' T k hk)

/-- The traces become parts of larger ones. -/
theorem wrap (h : Enumerates V items) {c : Trace → Trace} (hc : Function.Injective c) :
    Enumerates (fun T k => ∃ a, T = c a ∧ V a k) items := by
  obtain ⟨traces, hnodup, hitems, hall⟩ := h
  refine ⟨traces.map c, hnodup.map hc, List.forall₂_map_left_iff.mpr ?_, ?_⟩
  · exact hitems.imp fun T i ⟨k, hi, hk⟩ => ⟨k, hi, T, rfl, hk⟩
  · rintro _ k ⟨a, rfl, hk⟩
    exact List.mem_map_of_mem (hall a k hk)

/-- The solutions are changed. -/
theorem map (h : Enumerates V items) {f : Item → Item}
    (hf : ∀ T k, V T k → ∃ k', f (.ok k) = .ok k') :
    Enumerates (fun T k' => ∃ k, V T k ∧ f (.ok k) = .ok k') (items.map f) := by
  obtain ⟨traces, hnodup, hitems, hall⟩ := h
  refine ⟨traces, hnodup, List.forall₂_map_right_iff.mpr (hitems.imp ?_), ?_⟩
  · rintro T _ ⟨k, rfl, hk⟩
    obtain ⟨k', hk'⟩ := hf T k hk
    exact ⟨k', hk', k, hk, hk'⟩
  · rintro T k' ⟨k, hk, _⟩
    exact hall T k hk

/-- A list of traces for each of the listed traces. -/
theorem flatten {W : Trace → Trace → Env → Prop} {traces : List Trace} {parts : List (List Item)}
    (hnodup : traces.Nodup) (h : List.Forall₂ (fun a part => Enumerates (W a) part) traces parts)
    (hW : ∀ a a' T k k', W a T k → W a' T k' → a = a') :
    Enumerates (fun T k => ∃ a ∈ traces, W a T k) parts.flatten := by
  induction h with
  | nil => exact .nil fun T k => by simp
  | @cons a part traces parts hpart _ ih =>
    obtain ⟨ha, hnodup⟩ := List.nodup_cons.mp hnodup
    refine (hpart.append (ih hnodup) ?_).congr fun T k => by simp
    rintro T k k' hk ⟨a', ha', hk'⟩
    exact ha (hW a a' T k k' hk hk' ▸ ha')

/-- Traces of a second part follow each trace of the first. -/
theorem pair {W : Env → Trace → Env → Prop} {parts : List (List Item)} (h : Enumerates V items)
    (hunique : ∀ T k k', V T k → V T k' → k = k')
    (hparts : List.Forall₂ (fun i part => ∀ k, i = .ok k → (∃ T, V T k) → Enumerates (W k) part)
      items parts) :
    Enumerates (fun T k' => ∃ a b k, T = .pair a b ∧ V a k ∧ W k b k') parts.flatten := by
  obtain ⟨traces, hnodup, hitems, hall⟩ := h
  have heach : List.Forall₂ (fun a part =>
      Enumerates (fun T k' => ∃ b k, T = .pair a b ∧ V a k ∧ W k b k') part) traces parts := by
    clear hnodup hall
    induction hitems generalizing parts with
    | nil => cases hparts; exact .nil
    | @cons a i traces items hi _ ih =>
      cases hparts with
      | @cons _ part _ parts hpart hparts =>
        obtain ⟨k, rfl, hk⟩ := hi
        have hwrap := (hpart k rfl ⟨a, hk⟩).wrap (c := .pair a) fun b b' hb => by cases hb; rfl
        refine .cons (hwrap.congr fun T k' => ?_) (ih hparts)
        constructor
        · rintro ⟨b, rfl, hb⟩
          exact ⟨b, k, rfl, hk, hb⟩
        · rintro ⟨b, k₁, rfl, hk₁, hb⟩
          exact ⟨b, rfl, hunique a k k₁ hk hk₁ ▸ hb⟩
  refine (flatten hnodup heach ?_).congr fun T k' => ?_
  · rintro a a' _ k k' ⟨b, _, rfl, _⟩ ⟨b', _, hb', _⟩
    cases hb'
    rfl
  · constructor
    · rintro ⟨a, _, b, k, rfl, hk, hb⟩
      exact ⟨a, b, k, rfl, hk, hb⟩
    · rintro ⟨a, b, k, rfl, hk, hb⟩
      exact ⟨a, hall a k hk, b, k, rfl, hk, hb⟩

/-- Items that concur with listed ones are listed as well. -/
theorem of_concur {R : Env → Env → Prop} (h : Enumerates V items)
    (hitems : List.Forall₂ (Concur R) items' items) :
    Enumerates (fun T k' => ∃ k, V T k ∧ R k' k) items' := by
  obtain ⟨traces, hnodup, htraces, hall⟩ := h
  refine ⟨traces, hnodup, (forall₂_of_common ?_ hitems.flip htraces.flip).flip, ?_⟩
  · rintro _ i T hconcur ⟨k, rfl, hk⟩
    cases hconcur with
    | ok hR => exact ⟨_, rfl, k, hk, hR⟩
  · rintro T _ ⟨k, hk, _⟩
    exact hall T k hk

/-- Where the traces of two lists correspond to one another, the solutions do so, too, but for
their order. -/
theorem exists_perm (h : Enumerates V items) (h' : Enumerates V' items') {f : Trace → Trace}
    (hf : Function.Involutive f) (hforth : ∀ T k, V T k → ∃ k', V' (f T) k')
    (hback : ∀ T k, V' T k → ∃ k', V (f T) k') {R : Env → Env → Prop}
    (hR : ∀ T k k', V T k → V' (f T) k' → R k k') :
    ∃ solutions solutions' reordered : List Env, items = solutions.map .ok ∧
      items' = solutions'.map .ok ∧ List.Forall₂ R solutions reordered ∧
      reordered.Perm solutions' := by
  obtain ⟨traces, hnodup, htraces, hall⟩ := h
  obtain ⟨traces', hnodup', htraces', hall'⟩ := h'
  have hperm : (traces.map f).Perm traces' := by
    refine (List.perm_ext_iff_of_nodup (hnodup.map hf.injective) hnodup').mpr fun T => ?_
    constructor
    · intro hT
      obtain ⟨T₀, hT₀, rfl⟩ := List.mem_map.mp hT
      obtain ⟨k, hk⟩ := exists_of_mem htraces hT₀
      obtain ⟨k', hk'⟩ := hforth T₀ k hk
      exact hall' _ k' hk'
    · intro hT
      obtain ⟨k', hk'⟩ := exists_of_mem htraces' hT
      obtain ⟨k, hk⟩ := hback T k' hk'
      exact List.mem_map.mpr ⟨f T, hall _ k hk, hf T⟩
  obtain ⟨solutions, rfl, hsolutions⟩ := exists_solutions_of_forall₂ htraces
  obtain ⟨solutions', rfl, hsolutions'⟩ := exists_solutions_of_forall₂ htraces'
  obtain ⟨reordered, hreordered, hperm'⟩ := List.perm_comp_forall₂ hperm hsolutions'
  rw [List.forall₂_map_left_iff] at hreordered
  exact ⟨solutions, solutions', reordered, rfl, rfl,
    forall₂_of_common hR hsolutions hreordered, hperm'⟩

end Enumerates

/-- However the search is pulled to its end, its items are what the traces lead to. -/
def Search.Lists (search : Search Item) (V : Trace → Env → Prop) : Prop :=
  ∀ items, Completes search items → Enumerates V items

namespace Search

variable {search : Search Item} {V V' : Trace → Env → Prop}

/-- What a search lists depends on which traces lead to what. -/
theorem Lists.congr (h : search.Lists V) (hV : ∀ T k, V T k ↔ V' T k) : search.Lists V' :=
  fun items hitems => (h items hitems).congr hV

/-- A single solution lists a single trace. -/
theorem lists_one (T : Trace) (k : Env) :
    (one (.ok k)).Lists fun T' k' => T' = T ∧ k' = k := by
  intro items hitems
  rw [completes_one hitems]
  exact .one T k

/-- A search that is over lists no trace. -/
theorem lists_done (hV : ∀ T k, ¬ V T k) : Lists done V := by
  intro items hitems
  cases hitems
  exact .nil hV

/-- A search lists the traces that are wrapped in the same way. -/
theorem Lists.wrap (h : search.Lists V) {c : Trace → Trace} (hc : Function.Injective c) :
    search.Lists fun T k => ∃ a, T = c a ∧ V a k :=
  fun items hitems => (h items hitems).wrap hc

/-- Searches for different traces that run one after the other list both. -/
theorem Lists.append {later : Unit → Search Item} (h : search.Lists V)
    (h' : (later ()).Lists V') (hne : ∀ T k k', V T k → ¬ V' T k') :
    (search.append later).Lists fun T k => V T k ∨ V' T k := by
  intro items hitems
  obtain ⟨before, after, hbefore, hafter, rfl⟩ := completes_append hitems
  exact (h before hbefore).append (h' after hafter) hne

/-- However two searches are interleaved, the traces of both are listed. -/
theorem Lists.merge {left right : Unit → Search Item} (h : (left ()).Lists V)
    (h' : (right ()).Lists V') (hne : ∀ T k k', V T k → ¬ V' T k') :
    (Search.merge left right).Lists fun T k => V T k ∨ V' T k := by
  intro items hitems
  obtain ⟨ls, rs, hl, hr, hperm⟩ := completes_merge hitems
  exact ((h ls hl).append (h' rs hr) hne).perm hperm

/-- A search whose solutions are changed lists the traces as before. -/
theorem Lists.map (h : search.Lists V) {f : Item → Item}
    (hf : ∀ T k, V T k → ∃ k', f (.ok k) = .ok k') :
    (Search.map f search).Lists fun T k' => ∃ k, V T k ∧ f (.ok k) = .ok k' := by
  intro items hitems
  obtain ⟨before, hbefore, rfl⟩ := completes_map hitems
  exact (h before hbefore).map hf

/-- One search under the solutions of another lists pairs of traces. -/
theorem Lists.under {f : Env → Search Item} {W : Env → Trace → Env → Prop} (h : search.Lists V)
    (hunique : ∀ T k k', V T k → V T k' → k = k') (hf : ∀ T k, V T k → (f k).Lists (W k)) :
    (search.under f).Lists fun T k' => ∃ a b k, T = .pair a b ∧ V a k ∧ W k b k' := by
  intro items hitems
  obtain ⟨first, parts, hfirst, hparts, rfl⟩ := completes_bind hitems
  refine (h first hfirst).pair hunique (hparts.imp ?_)
  rintro _ part hpart k rfl ⟨T, hT⟩
  exact hf T k hT part hpart

end Search

namespace Program

variable {program : Program} {applied : Pattern → Env → Search Item}

/-- The given applications list the traces along which their pattern is solved. -/
def Listed (program : Program) (applied : Pattern → Env → Search Item) : Prop :=
  ∀ g k, (Goal.apply g).Positive k → k.WellFormed → k.Over Constant.IsStable →
    (applied g k).Lists fun T k' => program.Runs T (.apply g) k k'

/-- A rule of the list is the first one or one of the others. -/
private theorem exists_rule_cons_iff {r : Rule} {rules : Program} {i : Nat} {T : Trace}
    {Q : Match → Trace → Prop} :
    (∃ (n : Nat) (m : Match) (a : Trace), T = .rule (i + n) a ∧
        (r :: rules)[n]? = some m.rule ∧ Q m a) ↔
      (∃ a, T = .rule i a ∧ ∃ k₁, Q ⟨r, k₁⟩ a) ∨
      ∃ (n : Nat) (m : Match) (a : Trace), T = .rule (i + 1 + n) a ∧
        rules[n]? = some m.rule ∧ Q m a := by
  constructor
  · rintro ⟨n, m, a, rfl, hn, hm⟩
    cases n with
    | zero =>
      obtain rfl : r = m.rule := Option.some.inj hn
      exact Or.inl ⟨a, rfl, m.env, hm⟩
    | succ n => exact Or.inr ⟨n, m, a, by rw [Nat.add_right_comm]; rfl, hn, hm⟩
  · rintro (⟨a, rfl, k₁, hm⟩ | ⟨n, m, a, rfl, hn, hm⟩)
    · exact ⟨0, ⟨r, k₁⟩, a, rfl, rfl, hm⟩
    · exact ⟨n + 1, m, a, by rw [Nat.add_right_comm]; rfl, hn, hm⟩

/-- The rules that match are selected in order; `i` rules were passed before. -/
theorem lists_select {rules : Program} {g : Pattern} {k : Env} (i : Nat)
    (hok : ∀ r ∈ rules, ∃ result, Pattern.matchGoal r.condition g k = .ok result)
    {f : Match → Search Item} {W : Match → Trace → Env → Prop}
    (hf : ∀ m, m.rule ∈ rules → Pattern.matchGoal m.rule.condition g k = .ok (some m.env) →
      (f m).Lists (W m)) :
    ((ofList (rules.select g k)).bind fun
      | .ok m => f m
      | .error e => one (.error e)).Lists fun T k' => ∃ n m a, T = .rule (i + n) a ∧
        rules[n]? = some m.rule ∧ Pattern.matchGoal m.rule.condition g k = .ok (some m.env) ∧
        W m a k' := by
  induction rules generalizing i with
  | nil => exact lists_done fun T k' => by simp
  | cons r rules ih =>
    have hrest := ih (i + 1) (fun r' hr' => hok r' (List.mem_cons_of_mem r hr'))
      fun m hm => hf m (List.mem_cons_of_mem r hm)
    obtain ⟨result, hresult⟩ := hok r List.mem_cons_self
    cases result with
    | none =>
      simp only [select, Rule.matchGoal, hresult]
      refine hrest.congr fun T k' => ?_
      simp [exists_rule_cons_iff, hresult]
    | some k₁ =>
      have hhere := (hf ⟨r, k₁⟩ List.mem_cons_self hresult).wrap (c := .rule i)
        fun _ _ h => (Trace.rule.inj h).2
      simp only [select, Rule.matchGoal, hresult, ofList, Search.bind]
      refine (hhere.append hrest ?_).congr fun T k' => ?_
      · rintro _ _ _ ⟨a, rfl, _⟩ ⟨n, m, b, hb, _⟩
        have hindex := (Trace.rule.inj hb).1
        omega
      · simp [exists_rule_cons_iff, hresult]

section

variable (hpure : program.IsPure) (hstable : program.Each (Term.Over Constant.IsStable))

include hpure hstable

/-- A search that goes on under the solutions of a goal lists the traces of the conjunction. -/
theorem lists_and {search : Search Item} {f : Env → Search Item} {p q : Goal} {k : Env}
    (hp : p.Positive k) (hq : q.Positive k) (hk : k.WellFormed) (hU : k.Over Constant.IsStable)
    (hsearch : search.Lists fun T k' => program.Runs T p k k')
    (hf : ∀ k₁, k₁.WellFormed → k₁.Over Constant.IsStable → q.Positive k₁ →
      (f k₁).Lists fun T k' => program.Runs T q k₁ k') :
    (search.under f).Lists fun T k' => program.Runs T (.and p q) k k' := by
  refine (hsearch.under (W := fun k₁ T k' => program.Runs T q k₁ k')
    (fun T k₁ k₂ h h' => h.unique h') fun T k₁ hT => ?_).congr fun T k' => runs_and_iff.symm
  obtain ⟨hk₁, hU₁, hcontinues⟩ := hT.of_positive hpure hstable hp hk hU
  exact hf k₁ hk₁ hU₁ (hq.mono hcontinues)

/-- The definitions of a prelude are listed ahead of the goal that they are for. -/
theorem Listed.lists_ahead (happlied : program.Listed applied) {prelude : Prelude} {q : Goal}
    {k : Env} {f : Env → Search Item} (hp : (prelude.ahead q).Positive k) (hk : k.WellFormed)
    (hU : k.Over Constant.IsStable)
    (hf : ∀ k₁, k₁.WellFormed → k₁.Over Constant.IsStable → q.Positive k₁ →
      (f k₁).Lists fun T k' => program.Runs T q k₁ k') :
    ((prelude.explore applied k).under f).Lists
      fun T k' => program.Runs T (prelude.ahead q) k k' := by
  induction prelude generalizing q k f with
  | empty =>
    simp only [Prelude.explore, Search.under, bind_one]
    exact hf k hk hU hp
  | define t es =>
    exact lists_and hpure hstable hp.1 hp.2 hk hU (happlied _ k hp.1 hk hU) hf
  | both a b iha ihb =>
    rw [Prelude.explore, under_assoc]
    exact iha hp hk hU fun k₁ hk₁ hU₁ hb => ihb hb hk₁ hU₁ hf

/-- Exploring a positive goal lists the traces along which it is solved. -/
theorem Listed.explore (happlied : program.Listed applied) (turns : Nat) {p : Goal} {k : Env}
    (hp : p.Positive k) (hk : k.WellFormed) (hU : k.Over Constant.IsStable) :
    (p.explore applied turns k).Lists fun T k' => program.Runs T p k k' := by
  induction p generalizing k with
  | truth =>
    refine (lists_one .leaf k).congr fun T k' => ?_
    constructor
    · rintro ⟨rfl, rfl⟩
      exact .truth
    · rintro ⟨⟩
      exact ⟨rfl, rfl⟩
  | falsity => exact lists_done fun T k' h => by cases h
  | and p q ihp ihq =>
    have hopening := Goal.opening_eq_nil hp.1.ready.hostFree
    have hopening' := Goal.opening_eq_nil hp.2.ready.hostFree
    simp only [Goal.explore, hopening, hopening', noted]
    exact lists_and hpure hstable hp.1 hp.2 hk hU (ihp hp.1 hk hU) fun k₁ hk₁ hU₁ hq =>
      ihq hq hk₁ hU₁
  | or p q ihp ihq =>
    have hleft := (ihp hp.1 hk hU).wrap (c := .left) fun _ _ => Trace.left.inj
    have hright := (ihq hp.2 hk hU).wrap (c := .right) fun _ _ => Trace.right.inj
    refine (hleft.merge hright ?_).congr fun T k' => runs_or_iff.symm
    rintro _ _ _ ⟨a, rfl, _⟩ ⟨b, hb, _⟩
    cases hb
  | not p _ => exact hp.elim
  | apply g => exact happlied g k hp hk hU
  | call es =>
    obtain ⟨x, hx⟩ := hp.exists_flat hk
    obtain ⟨hkx, hUx, hpx⟩ := Expr.positive_flattenPhrase hp hk hU hx
    have hahead := happlied.lists_ahead hpure hstable hpx hkx hUx (f := applied x.terms)
      fun k₁ hk₁ hU₁ hg => happlied _ k₁ hg hk₁ hU₁
    rw [Goal.explore_call _ _ hx, Goal.explore_flatPhrase]
    exact (hahead.wrap (c := .call) fun _ _ => Trace.call.inj).congr fun T k' =>
      (runs_call_iff hx).symm
  | host g => exact hp.elim

/-- At every depth, the applications of a pure program list the traces of their pattern. -/
theorem listed_applications (depth : Nat) :
    program.Listed (Selector.applications program.select depth) := by
  induction depth with
  | zero =>
    intro g k _ _ _ items hitems
    cases hitems
  | succ depth ih =>
    intro g k hg hk hU
    have hover : Pattern.Each (Term.Over Constant.IsStable) g := fun t ht => (hg t ht).1
    have hok : ∀ r ∈ program, ∃ result, Pattern.matchGoal r.condition g k = .ok result :=
      fun r hr => matchGoal_eq_ok hstable hk hU hg hr
    rw [Selector.applications]
    refine (lists_select 0 hok (W := fun m T k' => ∃ k₂, program.Runs T m.rule.body m.env k₂ ∧
      k₂.restore k = .ok k') fun m hr hm => ?_).congr fun T k' => ?_
    · obtain ⟨hk₁, hU₁, hextends, hdefinite⟩ :=
        hpure.match_wellFormed hstable hr hover hm hk hU
      have hbody := ih.explore hpure hstable depth hdefinite.positive hk₁ hU₁
      rw [Match.solutions, Goal.start_eq_explore hdefinite.ready.hostFree]
      refine hbody.map fun T k₂ hT => ?_
      obtain ⟨hk₂, _, hcontinues⟩ := hT.of_positive hpure hstable hdefinite.positive hk₁ hU₁
      exact Env.restore_eq_ok hk₂.grounded fun v hv =>
        hcontinues.declared (hextends.declared hv)
    · rw [runs_apply_iff]
      simp only [Nat.zero_add]

end

end Program

end Deduction
