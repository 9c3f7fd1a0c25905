import Deduction.Proofs.Assignment
import Deduction.Proofs.Learning

/-!
# Learning adds one equation

What an environment knows is a system of equations, and every attempt to learn puts one more
equation to it. The attempt succeeds where the larger system has a solution, and then the new
environment has exactly its solutions. How long the chains are, and which of two roots is linked to
the other, does not matter: along a chain all variables are given equal constants, so an equation
between variables says the same of their roots. This is shown for every judge that is lawful on the
constants at hand, and with that for the payloads' own comparison.
-/

namespace Deduction

variable {U : Constant → Prop} {judge : Judge}

/-- What a root stands for: the constant that is known, or what its variable is given. -/
def Root.under (s : Assignment U) (r : Root) : Constant := r.value.getD (s r.last)

namespace Env

variable {k k' : Env} {s : Assignment U} {v w : Variable} {r r' : Root}

/-! ## Chains -/

/-- The end of a chain stands for a constant of the set. -/
theorem Ends.under_mem (hk : k.Over U) (h : Ends k.statuses v r) : U (r.under s) := by
  obtain ⟨last, _ | c⟩ := r
  · exact (s last).2
  · exact hk.statuses h.get?_last

section

variable (hU : Constant.Lawful U judge) (hk : k.Over U)

include hU hk

/-- A variable is given what its root stands for. -/
theorem Ends.equals_under (h : Ends k.statuses v r) (hs : k.TrueUnder s judge) :
    (s v : Constant).Equals (r.under s) judge := by
  induction h with
  | unresolved => exact hU.refl (s _).2
  | resolved hv => exact hs _ _ hv
  | linked hv hw ih => exact hU.trans (s _).2 (s _).2 (hw.under_mem hk) (hs _ _ hv) ih

/-- A variable equals just the constants that its root equals. -/
theorem Ends.under_equals_iff (h : Ends k.statuses v r) (hs : k.TrueUnder s judge)
    {c : Constant} (hc : U c) :
    (r.under s).Equals c judge ↔ (s v : Constant).Equals c judge :=
  (hU.congr (s v).2 (h.under_mem hk) hc hc (h.equals_under hU hk hs) (hU.refl hc)).symm

/-- Two variables are equal when their roots are. -/
theorem Ends.under_equals_under_iff (h : Ends k.statuses v r) (h' : Ends k.statuses w r')
    (hs : k.TrueUnder s judge) :
    (r.under s).Equals (r'.under s) judge ↔ (s v : Constant).Equals (s w) judge :=
  (hU.congr (s v).2 (h.under_mem hk) (s w).2 (h'.under_mem hk) (h.equals_under hU hk hs)
    (h'.equals_under hU hk hs)).symm

/-- Where all chains end, some assignment makes the environment true. -/
theorem exists_trueUnder (hground : Grounded k.statuses) :
    ∃ s : Assignment U, k.TrueUnder s judge := by
  -- unresolved roots are given an atom, and every variable what its root stands for then
  let start : Assignment U := fun _ => ⟨.atom "", hU.atom ""⟩
  have hread : ∀ v, ∃ c : {c : Constant // U c}, ∀ r, Ends k.statuses v r →
      (c : Constant) = r.under start := by
    intro v
    by_cases hv : ∃ r, Ends k.statuses v r
    · obtain ⟨r, hr⟩ := hv
      exact ⟨⟨r.under start, hr.under_mem hk⟩,
        fun r' hr' => congrArg (Root.under start) (hr.unique hr')⟩
    · exact ⟨start v, fun r hr => (hv ⟨r, hr⟩).elim⟩
  choose s hs using hread
  refine ⟨s, fun v st hv => ?_⟩
  cases st with
  | unresolved => trivial
  | resolved c =>
    have hvalue : (s v : Constant) = c := hs v _ (.resolved hv)
    rw [Status.TrueUnder, hvalue]
    exact hU.refl (hk.statuses hv)
  | linked w =>
    obtain ⟨r, hr⟩ := hground.ends_of_linked hv
    have hsame : (s v : Constant) = s w := (hs v r (.linked hv hr)).trans (hs w r hr).symm
    rw [Status.TrueUnder, hsame]
    exact hU.refl (s w).2

end

/-- A status placed at an unresolved variable adds the equation that it stands for. -/
theorem trueUnder_setStatus_iff {st : Status} (hv : k.statuses.get? v = some .unresolved) :
    (k.setStatus v st).TrueUnder s judge ↔
      k.TrueUnder s judge ∧ st.TrueUnder s (s v) judge := by
  constructor
  · intro h
    refine ⟨fun w t hw => ?_, h v st (VarMap.get?_insert_self _ _ _)⟩
    have hkept := (continues_setStatus st hv).kept hw
    cases t with
    | unresolved => trivial
    | resolved c => exact h w _ (hkept (by simp))
    | linked u => exact h w _ (hkept (by simp))
  · rintro ⟨h, hst⟩ w t hw
    rcases VarMap.get?_insert_cases hw with ⟨rfl, rfl⟩ | hw
    · exact hst
    · exact h w t hw

end Env

/-- Two referents can be compared, and those that agree are equal. -/
theorem Referent.exists_agrees (hU : Constant.Lawful U judge) {k : Env} {p q : Referent}
    (hp : p.Within U k) (hq : q.Within U k) :
    ∃ verdict, p.agrees q judge = .ok verdict ∧
      (verdict = true → ∀ s : Assignment U, (p.under s).Equals (q.under s) judge) := by
  cases p with
  | const c =>
    cases q with
    | const d =>
      obtain ⟨verdict, hcd⟩ := hU.comparable c d hp hq
      exact ⟨verdict, hcd, by rintro rfl _; exact hcd⟩
    | var w => exact ⟨false, rfl, by simp⟩
  | var v =>
    cases q with
    | const d => exact ⟨false, rfl, by simp⟩
    | var w =>
      refine ⟨v == w, rfl, fun hvw s => ?_⟩
      rw [eq_of_beq hvw]
      exact hU.refl (s w).2

/-! ## Outcomes that add an equation -/

/-- After the attempt those assignments make the environment true that made it true before and that
satisfy the equation. A success takes one elementary update at most, and binds nothing. -/
structure Outcome.Adds (k : Env) (o : Outcome) (equation : Assignment U → Prop)
    (judge : Judge := Payload.agrees) : Prop where
  truth_iff : ∀ s, (∃ k', o.after k = some k' ∧ k'.TrueUnder s judge) ↔
    k.TrueUnder s judge ∧ equation s
  updates : ∀ {k'}, o.after k = some k' → o.Updates U k k'
  locals_eq : ∀ {k'}, o.after k = some k' → k'.locals = k.locals

namespace Outcome

variable {k : Env} {o : Outcome} {P Q : Assignment U → Prop}

/-- An outcome that learns nothing adds what holds already. -/
theorem adds_known (h : ∀ s, k.TrueUnder s judge → P s) : known.Adds k P judge where
  truth_iff s := by simpa [after] using h s
  updates := updates_known
  locals_eq hk := by cases hk; rfl

/-- A clash adds what cannot hold. -/
theorem adds_clash (h : ∀ s, k.TrueUnder s judge → ¬ P s) : clash.Adds k P judge where
  truth_iff s := by simpa [after] using h s
  updates hk := by cases hk
  locals_eq hk := by cases hk

/-- A new status adds the equation that it stands for. -/
theorem adds_setStatus {v : Variable} {st : Status}
    (hv : k.statuses.get? v = some .unresolved) (hupdate : Env.Update U k (k.setStatus v st))
    (h : ∀ s, k.TrueUnder s judge → (st.TrueUnder s (s v) judge ↔ P s)) :
    (learned (k.setStatus v st)).Adds k P judge where
  truth_iff s := by
    rw [← and_congr_right (h s), ← Env.trueUnder_setStatus_iff hv]
    simp [after]
  updates := updates_learned hupdate rfl
  locals_eq hk := by cases hk; rfl

/-- Statements that are the same for the environment are added alike. -/
theorem Adds.congr (h : o.Adds k P judge)
    (hPQ : ∀ s, k.TrueUnder s judge → (P s ↔ Q s)) : o.Adds k Q judge where
  truth_iff s := by rw [h.truth_iff s, and_congr_right (hPQ s)]
  updates := h.updates
  locals_eq := h.locals_eq

/-- Comparing two constants adds that they are equal. -/
theorem exists_adds_ofComparison {c d : Constant}
    (hcd : ∃ verdict, c.agrees d judge = .ok verdict)
    (h : ∀ s, k.TrueUnder s judge → (c.Equals d judge ↔ P s)) :
    ∃ o, ofComparison (c.agrees d judge) = .ok o ∧ o.Adds k P judge := by
  obtain ⟨_ | _, hcd⟩ := hcd
  · refine ⟨clash, by rw [hcd]; rfl, adds_clash fun s hs hP => ?_⟩
    have hequals : c.agrees d judge = .ok true := (h s hs).mpr hP
    rw [hcd] at hequals
    cases hequals
  · exact ⟨known, by rw [hcd]; rfl, adds_known fun s hs => (h s hs).mp hcd⟩

end Outcome

namespace Env

variable {k : Env}

section

variable (hU : Constant.Lawful U judge) (hk : k.Over U)

include hU hk

/-- Resolving a variable adds that it equals the constant. -/
theorem resolve_adds {v : Variable} {r : Root} {c : Constant} (hv : Ends k.statuses v r)
    (hc : U c) : ∃ o, k.resolve v c judge = .ok o ∧
      o.Adds (U := U) k (fun s => (s v : Constant).Equals c judge) judge := by
  have hroot := fun s hs => hv.under_equals_iff (s := s) hU hk hs hc
  obtain ⟨last, _ | d⟩ := r
  · have hlast := hv.get?_last
    exact ⟨_, by simp only [resolve, hv.root_eq],
      Outcome.adds_setStatus hlast (.resolved hlast hc) hroot⟩
  · simp only [resolve, hv.root_eq]
    exact Outcome.exists_adds_ofComparison (hU.comparable _ _ (hk.statuses hv.get?_last) hc) hroot

/-- Linking two variables adds that they are equal, in whichever direction their roots are linked or
hand on a constant. -/
theorem link_adds {v w : Variable} {r r' : Root} (hv : Ends k.statuses v r)
    (hw : Ends k.statuses w r') : ∃ o, k.link v w judge = .ok o ∧
      o.Adds (U := U) k (fun s => (s v : Constant).Equals (s w) judge) judge := by
  have hroots := fun s hs => hv.under_equals_under_iff (s := s) hU hk hw hs
  by_cases hlast : r.last = r'.last
  · -- one and the same root, so there is nothing to add
    obtain rfl : r = r' := hv.ends_last.unique (hlast ▸ hw.ends_last)
    refine ⟨.known, by simp [link, hv.root_eq, hw.root_eq], Outcome.adds_known fun s hs => ?_⟩
    exact (hroots s hs).mp (hU.refl (hv.under_mem hk))
  · simp only [link, hv.root_eq, hw.root_eq, if_neg hlast]
    obtain ⟨last, _ | c⟩ := r
    · -- the equation is put between the variables of the roots, and the second one may be resolved
      have hunresolved := hv.get?_last
      refine ⟨_, rfl, Outcome.adds_setStatus hunresolved
        (.linked hunresolved hw.ends_last hlast) fun s hs => ?_⟩
      rw [← hroots s hs]
      exact hU.congr (s last).2 (s last).2 (s r'.last).2 (hw.under_mem hk) (hU.refl (s last).2)
        (hw.ends_last.equals_under hU hk hs)
    · have hc : U c := hk.statuses hv.get?_last
      obtain ⟨last', _ | d⟩ := r'
      · have hunresolved := hw.get?_last
        refine ⟨_, rfl, Outcome.adds_setStatus hunresolved (.resolved hunresolved hc)
          fun s hs => ?_⟩
        rw [← hroots s hs]
        exact hU.equals_comm (s last').2 hc
      · exact Outcome.exists_adds_ofComparison
          (hU.comparable _ _ hc (hk.statuses hw.get?_last)) hroots

/-- Equating two referents that do not agree already adds that they are equal. -/
theorem equate_adds {p q : Referent} (hground : Grounded k.statuses) (hp : p.Within U k)
    (hq : q.Within U k) (hne : p.agrees q judge = .ok false) :
    ∃ o, k.equate p q judge = .ok o ∧
      o.Adds (U := U) k (fun s => (p.under s).Equals (q.under s) judge) judge := by
  cases p with
  | var v =>
    obtain ⟨r, hv⟩ := hground v hp
    cases q with
    | var w =>
      obtain ⟨r', hw⟩ := hground w hq
      exact link_adds hU hk hv hw
    | const c => exact resolve_adds hU hk hv hq
  | const c =>
    cases q with
    | var w =>
      obtain ⟨r', hw⟩ := hground w hq
      obtain ⟨o, ho, hadds⟩ := resolve_adds hU hk hw hp
      exact ⟨o, ho, hadds.congr fun s _ => hU.equals_comm (s w).2 hp⟩
    | const d =>
      refine ⟨.clash, rfl, Outcome.adds_clash fun s _ hequals => ?_⟩
      have hcd : c.agrees d judge = .ok true := hequals
      rw [Referent.agrees, hcd] at hne
      cases hne

/-- A bound variable of the rule is equated with what it is assigned. -/
theorem assignReferent_adds {l : Variable} {p q : Referent} (hground : Grounded k.statuses)
    (hl : k.referent? l = some p) (hp : p.Within U k) (hq : q.Within U k) :
    ∃ o, k.assignReferent l q judge = .ok o ∧
      o.Adds (U := U) k (fun s => (p.under s).Equals (q.under s) judge) judge := by
  obtain ⟨verdict, hverdict, hequals⟩ := Referent.exists_agrees hU hp hq
  simp only [assignReferent, hl, hverdict]
  cases verdict with
  | true => exact ⟨.known, rfl, Outcome.adds_known fun s _ => hequals rfl s⟩
  | false => exact equate_adds hU hk hground hp hq hverdict

end

/-! ## Learning in well-formed environments -/

/-- The attempt adds an equation to an environment. It does not fail, and it succeeds where some
assignment makes the environment true and satisfies the equation. Then the new environment is true
under just these assignments; the rule's own variables are bound as before, and the declared
variables, the scope and the next number are the same. -/
def AddsEquation (k : Env) (attempt : Except Fault Outcome) (equation : Assignment U → Prop)
    (judge : Judge := Payload.agrees) : Prop :=
  ∃ o, attempt = .ok o ∧
    ((∃ k', o.after k = some k') ↔ ∃ s, k.TrueUnder s judge ∧ equation s) ∧
    ∀ k', o.after k = some k' →
      (∀ s, k'.TrueUnder s judge ↔ k.TrueUnder s judge ∧ equation s) ∧
      k'.locals = k.locals ∧ k.SameFrame k'

/-- The attempt binds a variable of the rule to a referent, and changes nothing else. -/
def AddsBinding (k : Env) (attempt : Except Fault Outcome) (l : Variable) (r : Referent) : Prop :=
  ∃ k', attempt = .ok (.learned k') ∧
    (∀ l', k'.referent? l' = if l' = l then some r else k.referent? l') ∧
    k'.statuses = k.statuses ∧ k.SameFrame k'

/-- Learning in an environment under a judge, with constants of a set: some assignment makes the
environment true, and the three operations add one equation each. A variable of the rule that is
bound already is equated with what it is assigned, and one that is not is bound to it. -/
structure LearnsEquations (U : Constant → Prop) (k : Env) (judge : Judge := Payload.agrees) :
    Prop where
  consistent : ∃ s : Assignment U, k.TrueUnder s judge
  resolving : ∀ v c, k.declares v = true → U c → k.AddsEquation (k.resolve v c judge)
    (fun s : Assignment U => (s v : Constant).Equals c judge) judge
  linking : ∀ v w, k.declares v = true → k.declares w = true →
    k.AddsEquation (k.link v w judge)
      (fun s : Assignment U => (s v : Constant).Equals (s w) judge) judge
  assigning : ∀ l p (r : Referent), k.referent? l = some p → r.Within U k →
    k.AddsEquation (k.assign l r.toTerm judge)
      (fun s : Assignment U => (p.under s).Equals (r.under s) judge) judge
  binding : ∀ l (r : Referent), k.referent? l = none → r.Within U k →
    k.AddsBinding (k.assign l r.toTerm judge) l r

/-- In a well-formed environment an attempt that adds an equation succeeds just where it can be
true: after a success all chains end, so some assignment makes the new environment true. -/
theorem addsEquation_of_adds (hU : Constant.Lawful U judge) (hk : k.WellFormed)
    (hkU : k.Over U) {attempt : Except Fault Outcome} {P : Assignment U → Prop}
    (h : ∃ o, attempt = .ok o ∧ o.Adds k P judge) : k.AddsEquation attempt P judge := by
  obtain ⟨o, ho, hadds⟩ := h
  refine ⟨o, ho, ⟨?_, ?_⟩, fun k' hk' => ⟨fun s => ?_, hadds.locals_eq hk',
    (hadds.updates hk').sameFrame⟩⟩
  · rintro ⟨k', hk'⟩
    have hevolves := (hadds.updates hk').evolves
    obtain ⟨s, hs⟩ :=
      exists_trueUnder hU (hevolves.over hkU) (hevolves.wellFormed hk).1.grounded
    exact ⟨s, (hadds.truth_iff s).mp ⟨k', hk', hs⟩⟩
  · rintro ⟨s, hs⟩
    obtain ⟨k', hk', _⟩ := (hadds.truth_iff s).mpr hs
    exact ⟨k', hk'⟩
  · rw [← hadds.truth_iff s, hk']
    simp

/-- An unbound variable of the rule is bound to what it is assigned. -/
theorem addsBinding_of_unbound {l : Variable} {r : Referent} (hl : k.referent? l = none)
    (hr : r.Within U k) : k.AddsBinding (k.assign l r.toTerm judge) l r := by
  have hupdate : Update U k (k.setLocal l r) := .bound hl hr
  exact ⟨_, assign_of_unbound hl hr, fun l' => VarMap.get?_insert _ _ _ _, rfl,
    hupdate.sameFrame rfl⟩

/-- Under a lawful judge every attempt to learn adds one equation. -/
theorem learnsEquations (hU : Constant.Lawful U judge) (hk : k.WellFormed) (hkU : k.Over U) :
    k.LearnsEquations U judge where
  consistent := exists_trueUnder hU hkU hk.grounded
  resolving v c hv hc := by
    obtain ⟨r, hr⟩ := hk.grounded v hv
    exact addsEquation_of_adds hU hk hkU (resolve_adds hU hkU hr hc)
  linking v w hv hw := by
    obtain ⟨r, hr⟩ := hk.grounded v hv
    obtain ⟨r', hr'⟩ := hk.grounded w hw
    exact addsEquation_of_adds hU hk hkU (link_adds hU hkU hr hr')
  assigning l p r hl hr := by
    rw [assign_toTerm]
    exact addsEquation_of_adds hU hk hkU
      (assignReferent_adds hU hkU hk.grounded hl (hk.referent_within hkU hl) hr)
  binding _ _ hl hr := addsBinding_of_unbound hl hr

/-- Every attempt to learn in a well-formed environment adds exactly one equation, if comparison is
lawful on the constants at hand; and so it does under every other judge that is lawful on them. -/
theorem learning_adds_one_equation (hk : k.WellFormed) (hkU : k.Over U) :
    (Constant.Lawful U → k.LearnsEquations U) ∧
      ∀ judge, Constant.Lawful U judge → k.LearnsEquations U judge :=
  ⟨fun hU => learnsEquations hU hk hkU, fun _ hU => learnsEquations hU hk hkU⟩

end Env

namespace Sample

/-- Atoms and integers. -/
inductive AtomOrInt : Constant → Prop
  | atom (name : String) : AtomOrInt (.atom name)
  | int (n : Int64) : AtomOrInt (.value (.int n))

/-- Atoms and integers compare lawfully. -/
theorem lawful_atomOrInt : Constant.Lawful AtomOrInt := by
  refine Constant.lawful_of_agrees_eq id .atom fun c d hc hd => ?_
  cases hc with
  | atom a => cases hd <;> simp [Constant.agrees, Bool.beq_eq_decide_eq]
  | int m =>
    cases hd with
    | atom b => rfl
    | int n => by_cases hmn : m = n <;> simp [Constant.agrees, Payload.agrees, hmn]

/-- Whether a payload is an odd integer. -/
def isOdd : Payload → Bool
  | .int n => n &&& 1 == 1
  | _ => false

/-- Finds integers equal when both are odd or neither is. -/
def sameParity (p q : Payload) : Comparison := .ok (isOdd p == isOdd q)

/-- The name of an atom, and the parity of a value. -/
def nameOrParity : Constant → String ⊕ Bool
  | .atom name => .inl name
  | .value p => .inr (isOdd p)

/-- A judge of parity is lawful on atoms and integers. -/
theorem lawful_sameParity : Constant.Lawful AtomOrInt sameParity := by
  refine Constant.lawful_of_agrees_eq nameOrParity .atom fun c d _ _ => ?_
  cases c <;> cases d <;>
    simp [Constant.agrees, sameParity, nameOrParity, Bool.beq_eq_decide_eq]

/-- A query in which `a` is linked to `b`, three and five are known, and nothing is known of `u`. -/
def threeAndFive : Env :=
  (((Env.declaring (["a", "b", "c", "u"].map .named)).setStatus (.named "a")
    (.linked (.named "b"))).setStatus (.named "b") (.resolved (.value (.int 3)))).setStatus
      (.named "c") (.resolved (.value (.int 5)))

/-- The scope of a rule that has bound a variable of its own to `a`. -/
def boundToThree : Env := threeAndFive.startMatching.setLocal (.named "l") (.var (.named "a"))

/-- All that is known there are atoms and integers. -/
theorem over_boundToThree : boundToThree.Over AtomOrInt := by
  have hlinked := Env.Update.over
    (.linked (v := .named "a") (r := ⟨.named "b", none⟩) (by decide) (.unresolved (by decide))
      (by decide)) (Env.over_declaring AtomOrInt (["a", "b", "c", "u"].map .named))
  have hthree := Env.Update.over
    (.resolved (v := .named "b") (by decide) (AtomOrInt.int 3)) hlinked
  have hfive := Env.Update.over
    (.resolved (v := .named "c") (by decide) (AtomOrInt.int 5)) hthree
  exact Env.Update.over (.bound (l := .named "l") (r := .var (.named "a")) rfl rfl)
    hfive.startMatching

/-- Three and five are the same only for a judge who looks at their parity. Three is handed on from
the variable of the rule to the one of which nothing was known. -/
theorem boundToThree_learns :
    boundToThree.link (.named "a") (.named "c") = .ok .clash ∧
    (¬ ∃ s : Assignment AtomOrInt, boundToThree.TrueUnder s ∧
      (s (.named "a") : Constant).Equals (s (.named "c"))) ∧
    boundToThree.link (.named "a") (.named "c") sameParity = .ok .known ∧
    (∀ s : Assignment AtomOrInt, boundToThree.TrueUnder s sameParity →
      (s (.named "a") : Constant).Equals (s (.named "c")) sameParity) ∧
    boundToThree.assign (.named "l") (.var (.named "u")) =
      .ok (.learned (boundToThree.setStatus (.named "u") (.resolved (.value (.int 3))))) ∧
    ∀ s : Assignment AtomOrInt,
      (boundToThree.setStatus (.named "u") (.resolved (.value (.int 3)))).TrueUnder s ↔
        boundToThree.TrueUnder s ∧ (s (.named "a") : Constant).Equals (s (.named "u")) := by
  have hclash : boundToThree.link (.named "a") (.named "c") = .ok .clash := by decide +kernel
  have hknown : boundToThree.link (.named "a") (.named "c") sameParity = .ok .known := by
    decide +kernel
  have hassign : boundToThree.assign (.named "l") (.var (.named "u")) =
      .ok (.learned (boundToThree.setStatus (.named "u") (.resolved (.value (.int 3))))) := by
    decide +kernel
  have hu : boundToThree.declares (.named "u") = true := by decide
  obtain ⟨hown, hjudged⟩ :=
    Env.learning_adds_one_equation (k := boundToThree) (by decide +kernel) over_boundToThree
  obtain ⟨_, hclash', hclashes, _⟩ :=
    (hown lawful_atomOrInt).linking (.named "a") (.named "c") (by decide) (by decide)
  obtain ⟨_, hknown', _, hknows⟩ :=
    (hjudged sameParity lawful_sameParity).linking (.named "a") (.named "c") (by decide)
      (by decide)
  obtain ⟨_, hassign', _, hassigns⟩ :=
    (hown lawful_atomOrInt).assigning (.named "l") (.var (.named "a")) (.var (.named "u"))
      (by decide) hu
  cases hclash.symm.trans hclash'
  cases hknown.symm.trans hknown'
  cases hassign.symm.trans hassign'
  refine ⟨hclash, fun h => ?_, hknown, fun s hs => ?_, hassign, (hassigns _ rfl).1⟩
  · obtain ⟨k', hk'⟩ := hclashes.mpr h
    cases hk'
  · exact (((hknows _ rfl).1 s).mp hs).2

end Sample

end Deduction
