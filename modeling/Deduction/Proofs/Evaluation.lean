import Deduction.Proofs.Computing
import Deduction.Proofs.Ways

/-!
# Nested arithmetic

The phrases of arithmetic evaluate to what they say, however deeply they are nested. Flattening
issues a temporary for every phrase, and the prelude resolves these one after the other, inner ones
first: by induction on the expression, solving the prelude has one solution, which changes nothing
but the temporaries of the expression, and in which the flattened expression is known to be the
value. What is asked of the whole phrase is then asked of integers.
-/

namespace Deduction

open Search

/-! ## Issued temporaries -/

namespace Env

/-- The environment after temporaries have been issued for the given number of phrases. -/
def issuing (k : Env) : Nat → Env
  | 0 => k
  | j + 1 => ((k.issuing j).issueTemporary Expr.phraseStem).2

/-- The temporaries of phrases with numbers from `i` up to `j` are unresolved. -/
def Pending (k : Env) (i j : Nat) : Prop :=
  ∀ l, i ≤ l → l < j → k.statuses.get? (.temporary Expr.phraseStem l) = some .unresolved

/-- The second environment continues the first one, and no variable but the temporaries of phrases
with numbers from `i` up to `j` has another status. -/
structure Fills (i j : Nat) (k k' : Env) : Prop where
  continues : k.Continues k'
  others : ∀ v, (∀ l, i ≤ l → l < j → v ≠ .temporary Expr.phraseStem l) →
    k'.statuses.get? v = k.statuses.get? v

variable {k k₁ k' : Env} {i j : Nat}

/-- Temporaries issued in two rounds are those issued in one. -/
theorem issuing_issuing (k : Env) (i j : Nat) : (k.issuing i).issuing j = k.issuing (i + j) := by
  induction j with
  | zero => rfl
  | succ j ih =>
    rw [issuing, ih]
    rfl

/-- Every temporary that is issued uses up one number. -/
theorem next_issuing (k : Env) (j : Nat) : (k.issuing j).next = k.next + j := by
  induction j with
  | zero => rfl
  | succ j ih =>
    change (k.issuing j).next + 1 = k.next + (j + 1)
    rw [ih, Nat.add_assoc]

/-- Issuing temporaries uses up their numbers. -/
theorem numbered_issuing (hk : k.Numbered) (j : Nat) : (k.issuing j).Numbered := by
  induction j with
  | zero => exact hk
  | succ j ih =>
    have hissued : Update (fun _ => True) (k.issuing j) (k.issuing (j + 1)) := .issued
    intro v i hv hi
    exact hissued.numbered ih hv hi

/-- Issuing temporaries continues the environment. -/
theorem continues_issuing (hk : k.Numbered) (j : Nat) : k.Continues (k.issuing j) := by
  induction j with
  | zero => exact Continues.refl k
  | succ j ih =>
    have hissued : Update (fun _ => True) (k.issuing j) (k.issuing (j + 1)) := .issued
    exact ih.trans (hissued.continues (numbered_issuing hk j))

/-- The next temporary is not among the issued ones. -/
theorem get?_issuing_next (hk : k.Numbered) (j : Nat) :
    (k.issuing j).statuses.get? (.temporary Expr.phraseStem (k.issuing j).next) = none :=
  Numbered.get?_next (numbered_issuing hk j) rfl

/-- The variables declared before keep their statuses. -/
theorem get?_issuing (hk : k.Numbered) {v : Variable} {s : Status}
    (hv : k.statuses.get? v = some s) (j : Nat) : (k.issuing j).statuses.get? v = some s := by
  induction j with
  | zero => exact hv
  | succ j ih =>
    exact VarMap.get?_insert_of_absent _ (get?_issuing_next hk j) ih

/-- Temporaries are pending as soon as they are issued. -/
theorem pending_issuing (hk : k.Numbered) (j : Nat) :
    (k.issuing j).Pending k.next (k.next + j) := by
  induction j with
  | zero => exact fun l hle hlt => absurd hlt (Nat.not_lt.mpr hle)
  | succ j ih =>
    intro l hle hlt
    by_cases hl : l < k.next + j
    · exact VarMap.get?_insert_of_absent _ (get?_issuing_next hk j) (ih l hle hl)
    · obtain rfl : l = (k.issuing j).next := by
        rw [next_issuing]
        omega
      exact VarMap.get?_insert_self _ _ _

/-- Of a range of pending temporaries every part is pending. -/
theorem Pending.mono {i' j' : Nat} (h : k.Pending i j) (hi : i ≤ i') (hj : j' ≤ j) :
    k.Pending i' j' :=
  fun l hle hlt => h l (Nat.le_trans hi hle) (Nat.lt_of_lt_of_le hlt hj)

/-- Nothing is filled where nothing changes. -/
theorem Fills.refl (i j : Nat) (k : Env) : k.Fills i j k := ⟨Continues.refl k, fun _ _ => rfl⟩

/-- A range that is filled step by step is filled. -/
theorem Fills.trans {i j : Nat} (h : Fills i j k k₁) (h' : Fills i j k₁ k') : Fills i j k k' where
  continues := h.continues.trans h'.continues
  others v hv := (h'.others v hv).trans (h.others v hv)

/-- What fills a range fills every wider one. -/
theorem Fills.mono {i' j' : Nat} (h : Fills i j k k') (hi : i' ≤ i) (hj : j ≤ j') :
    Fills i' j' k k' where
  continues := h.continues
  others v hv := h.others v fun l hle hlt =>
    hv l (Nat.le_trans hi hle) (Nat.lt_of_lt_of_le hlt hj)

/-- Temporaries with other numbers stay unresolved. -/
theorem Fills.pending {i' j' : Nat} (h : Fills i j k k') (hk : k.Pending i' j')
    (hrange : ∀ l, i' ≤ l → l < j' → l < i ∨ j ≤ l) : k'.Pending i' j' := by
  intro l hle hlt
  rw [h.others _ fun l' hle' hlt' heq => ?_]
  · exact hk l hle hlt
  · cases heq
    have := hrange l hle hlt
    omega

/-- Resolving one of the temporaries changes nothing else. -/
theorem Pending.fills_setInt (hk : k.Pending i j) {l : Nat} (hle : i ≤ l) (hlt : l < j)
    (n : Int64) : Fills i j k (k.setInt (.temporary Expr.phraseStem l) n) where
  continues := continues_setStatus _ (hk l hle hlt)
  others _ hv := VarMap.get?_insert_of_ne _ _ (hv l hle hlt)

/-- The resolved variable is known to be the integer. -/
theorem reads_setInt (k : Env) (v : Variable) (n : Int64) : (k.setInt v n).Reads (.var v) n := by
  have hends : Ends (k.setInt v n).statuses v ⟨v, some (.value (.int n))⟩ :=
    .resolved (VarMap.get?_insert_self _ _ _)
  exact hends.valueOf_eq

end Env

/-- One prelude after the other is explored as the goal of both. -/
theorem Prelude.explore_conj (applied : Pattern → Env → Search Item) (p q : Prelude) (k : Env) :
    (p.conj q).explore applied k = (p.explore applied k).under (q.explore applied) := by
  cases p with
  | empty => exact (bind_one _ _).symm
  | define t es =>
    cases q with
    | empty => exact (under_one _).symm
    | define t' es' => rfl
    | both q q' => rfl
  | both p p' =>
    cases q with
    | empty => exact (under_one _).symm
    | define t' es' => rfl
    | both q q' => rfl

/-! ## Values of expressions -/

/-- The integer can be the value of a payload. -/
def InRange (n : Int) : Prop := Int64.minValue.toInt ≤ n ∧ n ≤ Int64.maxValue.toInt

instance (n : Int) : Decidable (InRange n) := inferInstanceAs (Decidable (_ ∧ _))

namespace Sample

/-- The expression has the value, if the variables stand for the integers that they stand for in the
environment, and no intermediate result is out of range. -/
inductive Evaluates (k : Env) : Expr → Int → Prop
  | literal (n : Int64) : Evaluates k (.term (Term.int n)) n.toInt
  | known {v : Variable} {n : Int64} (h : k.valueOf v = .ok (some (.value (.int n)))) :
      Evaluates k (.term (.var v)) n.toInt
  | add {e e' : Expr} {m n : Int} (he : Evaluates k e m) (he' : Evaluates k e' n)
      (hrange : InRange (m + n)) : Evaluates k (.phrase [atom "add", e, e']) (m + n)
  | neg {e : Expr} {n : Int} (he : Evaluates k e n) (hrange : InRange (-n)) :
      Evaluates k (.phrase [atom "neg", e]) (-n)
  | succ {e : Expr} {n : Int} (he : Evaluates k e n) (hrange : InRange (n + 1)) :
      Evaluates k (.phrase [atom "succ", e]) (n + 1)

end Sample

/-- A number in range is not wrapped around. -/
theorem InRange.bmod_eq {n : Int} (h : InRange n) : n.bmod Int64.size = n := by
  obtain ⟨hmin, hmax⟩ := h
  have hmin' : -9223372036854775808 ≤ n := hmin
  have hmax' : n ≤ 9223372036854775807 := hmax
  have hsize : Int64.size = 18446744073709551616 := rfl
  rw [hsize]
  exact Int.bmod_eq_of_le (by omega) (by omega)

/-- A sum in range is the mathematical sum. -/
theorem InRange.toInt_add {m n : Int64} (h : InRange (m.toInt + n.toInt)) :
    (m + n).toInt = m.toInt + n.toInt :=
  (Int64.toInt_add m n).trans h.bmod_eq

/-- A negative in range is the mathematical one. -/
theorem InRange.toInt_neg {n : Int64} (h : InRange (-n.toInt)) : (-n).toInt = -n.toInt :=
  (Int64.toInt_neg n).trans h.bmod_eq

/-- A successor in range is the mathematical one. -/
theorem InRange.toInt_succ {n : Int64} (h : InRange (n.toInt + 1)) :
    (n + 1).toInt = n.toInt + 1 :=
  (Int64.toInt_add n 1).trans h.bmod_eq

/-! ## Solving the prelude -/

namespace Prelude

/-- In all that extends the environment, solving the prelude has one solution, in which nothing but
its temporaries with numbers from `i` up to `j` has changed and the referent is known to be the
integer. -/
def Computes (program : Program) (k : Env) (p : Prelude) (r : Referent) (n : Int) (i j : Nat) :
    Prop :=
  ∀ k₁, k.Extends k₁ → k₁.Pending i j → ∃ k' m, k₁.Fills i j k' ∧ k'.Reads r m ∧ m.toInt = n ∧
    ∀ depth, p.explore (Selector.applications program.select (depth + 3)) k₁ = one (.ok k')

variable {program : Program} {k : Env} {p q : Prelude} {r r' : Referent} {m n : Int} {i j l : Nat}

/-- Nothing has to be solved for what is known. -/
theorem computes_empty {n : Int64} (hr : k.Reads r n) (i : Nat) :
    empty.Computes program k r n.toInt i i :=
  fun k₁ hk _ => ⟨k₁, n, .refl i i k₁, hr.mono hk, rfl, fun _ => rfl⟩

/-- One more temporary is solved from one operand. -/
theorem Computes.unary (hp : p.Computes program k r n i j) (hij : i ≤ j) {name : String}
    {f : Int64 → Int64} {result : Int} (hf : ∀ a : Int64, a.toInt = n → (f a).toInt = result)
    (happlied : ∀ {k : Env} {t : Variable} {a : Int64}, k.statuses.get? t = some .unresolved →
      k.Reads r a → ∀ depth, Selector.applications program.select (depth + 3)
        (t.definedBy [.const (.atom name), r.toTerm]) k = one (.ok (k.setInt t (f a)))) :
    (p.conj (.define (.temporary Expr.phraseStem j) [.const (.atom name), r.toTerm])).Computes
      program k (.var (.temporary Expr.phraseStem j)) result i (j + 1) := by
  intro k₁ hk hpending
  obtain ⟨k₂, a, hfills, hreads, rfl, hexplore⟩ :=
    hp k₁ hk (hpending.mono (Nat.le_refl i) (Nat.le_succ j))
  have hpending₂ : k₂.Pending j (j + 1) :=
    hfills.pending (hpending.mono hij (Nat.le_refl _)) fun l hle _ => Or.inr hle
  refine ⟨k₂.setInt (.temporary Expr.phraseStem j) (f a), f a,
    (hfills.mono (Nat.le_refl i) (Nat.le_succ j)).trans ?_, k₂.reads_setInt _ _, hf a rfl,
    fun depth => ?_⟩
  · exact (hpending₂.fills_setInt (Nat.le_refl j) (Nat.lt_succ_self j) _).mono hij (Nat.le_refl _)
  · rw [explore_conj, hexplore, one_under]
    exact happlied (hpending₂ j (Nat.le_refl j) (Nat.lt_succ_self j)) hreads depth

/-- One more temporary is solved from two operands, whose temporaries are issued one after the
other. -/
theorem Computes.binary (hp : p.Computes program k r m i j) (hq : q.Computes program k r' n j l)
    (hij : i ≤ j) (hjl : j ≤ l) {name : String} {f : Int64 → Int64 → Int64} {result : Int}
    (hf : ∀ a b : Int64, a.toInt = m → b.toInt = n → (f a b).toInt = result)
    (happlied : ∀ {k : Env} {t : Variable} {a b : Int64}, k.statuses.get? t = some .unresolved →
      k.Reads r a → k.Reads r' b → ∀ depth, Selector.applications program.select (depth + 3)
        (t.definedBy [.const (.atom name), r.toTerm, r'.toTerm]) k =
        one (.ok (k.setInt t (f a b)))) :
    ((p.conj q).conj (.define (.temporary Expr.phraseStem l)
      [.const (.atom name), r.toTerm, r'.toTerm])).Computes
      program k (.var (.temporary Expr.phraseStem l)) result i (l + 1) := by
  intro k₁ hk hpending
  obtain ⟨k₂, a, hfills, hreads, rfl, hexplore⟩ :=
    hp k₁ hk (hpending.mono (Nat.le_refl i) (Nat.le_succ_of_le hjl))
  have hpending₂ : k₂.Pending j (l + 1) :=
    hfills.pending (hpending.mono hij (Nat.le_refl _)) fun l hle _ => Or.inr hle
  obtain ⟨k₃, b, hfills', hreads', rfl, hexplore'⟩ :=
    hq k₂ (hk.trans hfills.continues.toExtends) (hpending₂.mono (Nat.le_refl j) (Nat.le_succ l))
  have hpending₃ : k₃.Pending l (l + 1) :=
    hfills'.pending (hpending₂.mono hjl (Nat.le_refl _)) fun l hle _ => Or.inr hle
  have hreads₃ := hreads.mono hfills'.continues.toExtends
  refine ⟨k₃.setInt (.temporary Expr.phraseStem l) (f a b), f a b, ?_, k₃.reads_setInt _ _,
    hf a b rfl rfl, fun depth => ?_⟩
  · have hfirst := hfills.mono (Nat.le_refl i) (Nat.le_succ_of_le hjl)
    have hsecond := hfills'.mono hij (Nat.le_succ l)
    have hlast := hpending₃.fills_setInt (Nat.le_refl l) (Nat.lt_succ_self l) (f a b)
    exact (hfirst.trans hsecond).trans (hlast.mono (Nat.le_trans hij hjl) (Nat.le_refl _))
  · rw [explore_conj, explore_conj, hexplore, one_under, hexplore', one_under]
    exact happlied (hpending₃ l (Nat.le_refl l) (Nat.lt_succ_self l)) hreads₃ hreads' depth

end Prelude

/-! ## Flattening -/

namespace Expr

variable {k k₁ k₂ : Env} {e e' : Expr} {r r' : Referent} {p q : Prelude}

/-- A phrase with one operand is defined by the flattened operand. -/
theorem flatten_unary (he : e.flatten k = .ok ⟨r.toTerm, p, k₁⟩) (name : String) :
    (phrase [Sample.atom name, e]).flatten k =
      .ok ⟨(Referent.var (.temporary phraseStem k₁.next)).toTerm,
        p.conj (.define (.temporary phraseStem k₁.next) [.const (.atom name), r.toTerm]),
        k₁.issuing 1⟩ := by
  simp only [flatten, flattenAll, Sample.atom, he]
  rfl

/-- The phrase of a binary operation becomes a new temporary, defined after those of the operands.
-/
theorem flatten_binary (he : e.flatten k = .ok ⟨r.toTerm, p, k₁⟩)
    (he' : e'.flatten k₁ = .ok ⟨r'.toTerm, q, k₂⟩) (name : String) :
    (phrase [Sample.atom name, e, e']).flatten k =
      .ok ⟨(Referent.var (.temporary phraseStem k₂.next)).toTerm,
        (p.conj q).conj (.define (.temporary phraseStem k₂.next)
          [.const (.atom name), r.toTerm, r'.toTerm]),
        k₂.issuing 1⟩ := by
  simp only [flatten, flattenAll, Sample.atom, he, he']
  rfl

end Expr


namespace Sample

variable {object : Nat} {program : Program} {k k₁ : Env} {e e' : Expr} {m n : Int}

/-- What is evaluated is flattened to a constant, to a variable or to a temporary, and solving the
prelude makes it known as the value. -/
theorem Evaluates.flatten (h : Evaluates k e n) (hprogram : Reckons object program)
    (hk : k.Continues k₁) (hnumbered : k₁.Numbered) (hscope : k.scope = .query) :
    ∃ r p j, e.flatten k₁ = .ok ⟨r.toTerm, p, k₁.issuing j⟩ ∧
      p.Computes program k r n k₁.next (k₁.next + j) := by
  induction h generalizing k₁ with
  | literal n =>
    have hreads : k.Reads (.const (.value (.int n))) n := rfl
    exact ⟨.const (.value (.int n)), .empty, 0, rfl, Prelude.computes_empty hreads _⟩
  | @known v n hv =>
    have hreads : k.Reads (.var v) n := hv
    have hdeclared : k₁.declares v = true := (hreads.mono hk.toExtends).within
    refine ⟨.var v, .empty, 0, ?_, Prelude.computes_empty hreads _⟩
    simp only [Expr.flatten, Env.expandVariable, hk.scope.trans hscope, hdeclared, if_true]
    rfl
  | @add e e' m n he he' hrange ih ih' =>
    obtain ⟨r, p, i, hflatten, hp⟩ := ih hk hnumbered
    obtain ⟨r', q, j, hflatten', hq⟩ := ih' (hk.trans (Env.continues_issuing hnumbered i))
      (Env.numbered_issuing hnumbered i)
    have hphrase := Expr.flatten_binary hflatten hflatten' "add"
    rw [Env.issuing_issuing, Env.issuing_issuing, Env.next_issuing] at hphrase
    rw [Env.next_issuing, Nat.add_assoc] at hq
    refine ⟨_, _, i + j + 1, hphrase, hp.binary hq (Nat.le_add_right _ _)
      (Nat.add_le_add_left (Nat.le_add_right i j) _) (f := fun a b => a + b) ?_ ?_⟩
    · rintro a b rfl rfl
      exact hrange.toInt_add
    · exact fun ht hr hr' => applications_add hprogram ht hr hr'
  | @neg e n he hrange ih =>
    obtain ⟨r, p, j, hflatten, hp⟩ := ih hk hnumbered
    have hphrase := Expr.flatten_unary hflatten "neg"
    rw [Env.issuing_issuing, Env.next_issuing] at hphrase
    refine ⟨_, _, j + 1, hphrase, hp.unary (Nat.le_add_right _ _) (f := fun a => -a) ?_ ?_⟩
    · rintro a rfl
      exact hrange.toInt_neg
    · exact fun ht hr => applications_neg hprogram ht hr
  | @succ e n he hrange ih =>
    obtain ⟨r, p, j, hflatten, hp⟩ := ih hk hnumbered
    have hphrase := Expr.flatten_unary hflatten "succ"
    rw [Env.issuing_issuing, Env.next_issuing] at hphrase
    refine ⟨_, _, j + 1, hphrase, hp.unary (Nat.le_add_right _ _) (f := fun a => a + 1) ?_ ?_⟩
    · rintro a rfl
      exact hrange.toInt_succ
    · exact fun ht hr => applications_succ hprogram ht hr

/-- Asks whether two expressions stand for the same. -/
def sameGoal (e e' : Expr) : Goal := .call [.term (.keyword (.named "same")), e, e']

/-- The operands of the question are flattened one after the other. -/
theorem explore_sameGoal {k k₁ k₂ : Env} {r r' : Referent} {p q : Prelude}
    (he : e.flatten k = .ok ⟨r.toTerm, p, k₁⟩) (he' : e'.flatten k₁ = .ok ⟨r'.toTerm, q, k₂⟩)
    (applied : Pattern → Env → Search Item) (turns : Nat) :
    (sameGoal e e').explore applied turns k =
      ((p.conj q).explore applied k₂).under
        (applied [.keyword (.named "same"), r.toTerm, r'.toTerm]) := by
  have hflatten : Expr.flattenPhrase [.term (.keyword (.named "same")), e, e'] k =
      .ok ⟨[.keyword (.named "same"), r.toTerm, r'.toTerm], p.conj q, k₂⟩ := by
    simp only [Expr.flattenPhrase, Expr.flattenAll, Expr.flatten, he, he']
    rfl
  rw [sameGoal, Goal.explore_call applied turns hflatten, Goal.explore_flatPhrase]

end Sample

/-- Where at least so many rules may be nested, pulling the solutions of a goal brings exactly the
listed items and then the end. -/
def Goal.Exactly (p : Goal) (program : Program) (k : Env) (least : Nat) (items : List Item) :
    Prop :=
  ∀ depth limit choice, least ≤ depth → items.length < limit →
    (p.solve program.select depth limit choice k).items = items ∧
    (p.solve program.select depth limit choice k).ended = true

/-- A goal that is explored as a list, to every sufficient depth, is solved with exactly that list.
-/
theorem Goal.exactly_of_explore {p : Goal} {program : Program} {k : Env} {least : Nat}
    {items : List Item} (h : ∀ depth turns,
      p.explore (Selector.applications program.select (depth + least)) turns k = ofList items) :
    p.Exactly program k least items := by
  intro depth limit choice hdepth hlimit
  obtain ⟨depth, rfl⟩ := Nat.exists_eq_add_of_le' hdepth
  have hfollow : follow choice (ofList items) 0 = (items, true) := by
    rw [← append_done (ofList items), follow_append_ofList]
    simp [follow]
  obtain ⟨hitems, hended⟩ := take_eq_follow choice limit fun _ =>
    p.explore (Selector.applications program.select (depth + least)) (depth + least) k
  rw [h, hfollow] at hitems hended
  rw [← h depth (depth + least)] at hitems hended
  exact ⟨hitems.trans (List.take_of_length_le (Nat.le_of_lt hlimit)),
    hended.trans (by simpa using hlimit)⟩

namespace Sample

/-- The temporaries of an expression are no variables of the environment. -/
theorem ends_of_fills {k k' : Env} {x u : Variable} {i j : Nat} (hk : k.WellFormed)
    (hx : Env.Ends k.statuses x ⟨u, none⟩) (hfills : Env.Fills k.next j (k.issuing i) k') :
    Env.Ends k'.statuses x ⟨u, none⟩ := by
  have hu := hx.get?_last_unresolved rfl
  have hother : ∀ l, k.next ≤ l → l < j → u ≠ .temporary Expr.phraseStem l := by
    rintro l hle _ rfl
    exact absurd (hk.numbered (Env.declares_iff.mpr ⟨_, hu⟩) rfl) (Nat.not_lt.mpr hle)
  have hu' : k'.statuses.get? u = some .unresolved :=
    (hfills.others u hother).trans (Env.get?_issuing hk.numbered hu i)
  exact hx.prolong ((Env.continues_issuing hk.numbered i).trans hfills.continues).toExtends
    (.unresolved hu')

section

variable {k : Env} {e e' : Expr} {m n : Int}

/-- A variable without a value gets the value of the expression. -/
theorem Evaluates.exists_same (object : Nat) {x : Variable} (he : Evaluates k e n)
    (hk : k.WellFormed) (hscope : k.scope = .query) (hx : k.valueOf x = .ok none) :
    ∃ k' m, (sameGoal (.term (.var x)) e).Exactly (arithmetic object) k 3 [.ok k'] ∧
      k'.valueOf x = .ok (some (.value (.int m))) ∧ m.toInt = n := by
  have hnumbered : k.Numbered := fun hv hi => hk.numbered hv hi
  obtain ⟨⟨u, value⟩, hends, rfl⟩ := Env.exists_ends_of_valueOf hx
  have hflatten : (Expr.term (.var x)).flatten k = .ok ⟨(Referent.var x).toTerm, .empty, k⟩ := by
    have hdeclared : k.declares x = true := hends.contains
    simp only [Expr.flatten, Env.expandVariable, hscope, hdeclared, if_true]
  obtain ⟨r, p, j, hflatten', hp⟩ :=
    he.flatten (reckons_arithmetic object) (.refl k) hnumbered hscope
  obtain ⟨k₁, m, hfills, hreads, hm, hexplore⟩ := hp (k.issuing j)
    (Env.continues_issuing hnumbered j).toExtends (Env.pending_issuing hnumbered j)
  obtain ⟨s, hvalue, hsame⟩ := exists_applications_same (reckons_arithmetic object)
    (ends_of_fills hk hends hfills) hreads
  refine ⟨k₁.setStatus u s, m, Goal.exactly_of_explore fun depth turns => ?_, hvalue, hm⟩
  have hempty : Prelude.empty.conj p = p := rfl
  rw [explore_sameGoal hflatten hflatten', hempty, hexplore, one_under]
  exact hsame (depth + 2)

/-- Two expressions are both computed, and then their values are compared. -/
theorem Evaluates.exists_explore_same (object : Nat) (he : Evaluates k e m) (he' : Evaluates k e' n)
    (hk : k.WellFormed) (hscope : k.scope = .query) :
    ∃ k', ∀ depth turns, (sameGoal e e').explore
      (Selector.applications (arithmetic object).select (depth + 3)) turns k =
      if m = n then one (.ok k') else done := by
  have hnumbered : k.Numbered := fun hv hi => hk.numbered hv hi
  obtain ⟨r, p, i, hflatten, hp⟩ :=
    he.flatten (reckons_arithmetic object) (.refl k) hnumbered hscope
  obtain ⟨r', q, j, hflatten', hq⟩ := he'.flatten (reckons_arithmetic object)
    (Env.continues_issuing hnumbered i) (Env.numbered_issuing hnumbered i) hscope
  rw [Env.issuing_issuing] at hflatten'
  rw [Env.next_issuing, Nat.add_assoc] at hq
  have hpending := Env.pending_issuing hnumbered (i + j)
  have hcontinues := Env.continues_issuing hnumbered (i + j)
  -- the temporaries of both expressions are issued before any of them is solved
  obtain ⟨k₁, a, hfills, hreads, rfl, hexplore⟩ := hp (k.issuing (i + j)) hcontinues.toExtends
    (hpending.mono (Nat.le_refl _) (Nat.add_le_add_left (Nat.le_add_right i j) _))
  obtain ⟨k₂, b, hfills', hreads', rfl, hexplore'⟩ := hq k₁
    (hcontinues.trans hfills.continues).toExtends
    (hfills.pending (hpending.mono (Nat.le_add_right _ _) (Nat.le_refl _))
      fun l hle _ => Or.inr hle)
  have hsame := applications_same_integers (reckons_arithmetic object)
    (hreads.mono hfills'.continues.toExtends) hreads'
  refine ⟨k₂, fun depth turns => ?_⟩
  rw [explore_sameGoal hflatten hflatten', Prelude.explore_conj, hexplore, one_under, hexplore',
    one_under]
  simpa only [Int64.toInt_inj] using hsame (depth + 2)

end

/-- A nested arithmetic expression is computed by the question whether a variable without a value is
the same: there is exactly one solution, in which the variable has the value of the expression. Two
expressions are the same exactly once if their values are equal, and not at all otherwise. -/
theorem solve_sameGoal (object : Nat) {k : Env} (hk : k.WellFormed) (hscope : k.scope = .query) :
    (∀ {x : Variable} {e : Expr} {n : Int}, k.valueOf x = .ok none → Evaluates k e n →
      ∃ k' m, (sameGoal (.term (.var x)) e).Exactly (arithmetic object) k 3 [.ok k'] ∧
        k'.valueOf x = .ok (some (.value (.int m))) ∧ m.toInt = n) ∧
    (∀ {e e' : Expr} {m n : Int}, Evaluates k e m → Evaluates k e' n →
      (m = n → ∃ k', (sameGoal e e').Exactly (arithmetic object) k 3 [.ok k']) ∧
      (m ≠ n → (sameGoal e e').Exactly (arithmetic object) k 3 [])) := by
  refine ⟨fun hx he => he.exists_same object hk hscope hx, fun {e e' m n} he he' => ?_⟩
  obtain ⟨k', hexplore⟩ := he.exists_explore_same object he' hk hscope
  constructor
  · intro heq
    exact ⟨k', Goal.exactly_of_explore fun depth turns => by rw [hexplore, if_pos heq]; rfl⟩
  · intro hne
    exact Goal.exactly_of_explore fun depth turns => by rw [hexplore, if_neg hne]; rfl

/-- Knows that one variable is five, and that another one stands for the same. -/
def knowingFive : Env :=
  ((Env.declaring (["x", "y", "z"].map .named)).setStatus (.named "z")
    (.linked (.named "y"))).setInt (.named "y") 5

/-- The successor of seven and the negative of what `z` stands for, added up. -/
def threeBySum : Expr :=
  .phrase [atom "add", .phrase [atom "succ", .term (Term.int 7)], .phrase [atom "neg", written "z"]]

/-- The query that knows five is well formed. -/
theorem wellFormed_knowingFive : knowingFive.WellFormed := by decide

/-- A sum of the known number gives three, and three is not the known number. -/
theorem threeBySum_solved :
    (∃ k' m, (sameGoal (written "x") threeBySum).Exactly (arithmetic 0) knowingFive 3 [.ok k'] ∧
      k'.valueOf (.named "x") = .ok (some (.value (.int m))) ∧ m.toInt = 3) ∧
    (sameGoal threeBySum (written "y")).Exactly (arithmetic 0) knowingFive 3 [] := by
  have hseven : InRange ((7 : Int64).toInt + 1) := by decide
  have hfive : InRange (-(5 : Int64).toInt) := by decide
  have hsum : InRange ((7 : Int64).toInt + 1 + -(5 : Int64).toInt) := by decide
  have hz : Evaluates knowingFive (written "z") (5 : Int64).toInt := .known rfl
  have hy : Evaluates knowingFive (written "y") (5 : Int64).toInt := .known rfl
  have hthree : Evaluates knowingFive threeBySum ((7 : Int64).toInt + 1 + -(5 : Int64).toInt) :=
    .add (.succ (.literal 7) hseven) (.neg hz hfive) hsum
  obtain ⟨hcomputed, hcompared⟩ := solve_sameGoal 0 wellFormed_knowingFive rfl
  exact ⟨hcomputed rfl hthree, (hcompared hthree hy).2 (by decide)⟩

end Sample

end Deduction
