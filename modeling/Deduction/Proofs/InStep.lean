import Deduction.Proofs.Occurrence
import Deduction.Proofs.Pulling
import Deduction.Resolution

/-!
# Searches in step

Two searches are in step when they end, fork and write notes together and their items are
related one by one. Whoever pulls both of them in the same way then gets related items in the
same order and sees the same end. Each combinator of searches keeps its parts in step, and so
do two goals of the same shape whose patterns and calls are in step.
-/

namespace Deduction

/-- Two attempts that end alike: with related results, or with the same fault. -/
inductive Concur {α β : Type} (R : α → β → Prop) : Except Fault α → Except Fault β → Prop
  | ok {a : α} {b : β} (h : R a b) : Concur R (.ok a) (.ok b)
  | error (f : Fault) : Concur R (.error f) (.error f)

/-- Attempts that concur in a relation concur in every weaker one. -/
theorem Concur.mono {α β : Type} {R S : α → β → Prop} {x : Except Fault α} {y : Except Fault β}
    (hRS : ∀ {a b}, R a b → S a b) (h : Concur R x y) : Concur S x y := by
  cases h with
  | ok h => exact .ok (hRS h)
  | error f => exact .error f

/-- Two attempts that concur have both succeeded, or both met the same fault. -/
theorem Concur.cases {α β : Type} {R : α → β → Prop} {x : Except Fault α} {y : Except Fault β}
    (h : Concur R x y) :
    (∃ a b, x = .ok a ∧ y = .ok b ∧ R a b) ∨ ∃ f, x = .error f ∧ y = .error f := by
  cases h with
  | ok h => exact Or.inl ⟨_, _, rfl, rfl, h⟩
  | error f => exact Or.inr ⟨f, rfl, rfl⟩

namespace Search

variable {α β γ δ : Type} {R : α → β → Prop} {S : γ → δ → Prop}

/-- The two searches end, fork and note together, and their items are related. -/
inductive InStep (R : α → β → Prop) : Search α → Search β → Prop
  | done : InStep R done done
  | cut : InStep R cut cut
  | item {a : α} {b : β} {s : Unit → Search α} {t : Unit → Search β} (ha : R a b)
      (h : InStep R (s ()) (t ())) : InStep R (item a s) (item b t)
  | note {text : String} {s : Unit → Search α} {t : Unit → Search β}
      (h : InStep R (s ()) (t ())) : InStep R (note text s) (note text t)
  | fork {l r : Unit → Search α} {l' r' : Unit → Search β} (hl : InStep R (l ()) (l' ()))
      (hr : InStep R (r ()) (r' ())) : InStep R (fork l r) (fork l' r')

/-- Searches in step stay so when less is asked of their items. -/
theorem InStep.mono {R' : α → β → Prop} {s : Search α} {t : Search β}
    (hR : ∀ {a b}, R a b → R' a b) (h : InStep R s t) : InStep R' s t := by
  induction h with
  | done => exact .done
  | cut => exact .cut
  | item ha _ ih => exact .item (hR ha) ih
  | note _ ih => exact .note ih
  | fork _ _ ihl ihr => exact .fork ihl ihr

/-- A search is in step with itself. -/
theorem InStep.refl (s : Search α) : InStep Eq s s := by
  induction s with
  | done => exact .done
  | cut => exact .cut
  | item a rest ih => exact .item rfl (ih ())
  | note text rest ih => exact .note (ih ())
  | fork l r ihl ihr => exact .fork (ihl ()) (ihr ())

/-- Related items are emitted on both sides. -/
theorem InStep.with_emits {s : Search α} {t : Search β} (h : InStep R s t) :
    InStep (fun a b => R a b ∧ Emits s a ∧ Emits t b) s t := by
  induction h with
  | done => exact .done
  | cut => exact .cut
  | item ha _ ih =>
    exact .item ⟨ha, .here, .here⟩ (ih.mono fun ⟨hab, ha, hb⟩ => ⟨hab, .later ha, .later hb⟩)
  | note _ ih => exact .note (ih.mono fun ⟨hab, ha, hb⟩ => ⟨hab, .note ha, .note hb⟩)
  | fork _ _ ihl ihr =>
    exact .fork (ihl.mono fun ⟨hab, ha, hb⟩ => ⟨hab, .left ha, .left hb⟩)
      (ihr.mono fun ⟨hab, ha, hb⟩ => ⟨hab, .right ha, .right hb⟩)

/-! ## Pulling -/

/-- What two pulls have brought is related item by item, with the same end and notes. -/
structure Pulled.Alike (R : α → β → Prop) (p : Pulled α) (q : Pulled β) : Prop where
  items : List.Forall₂ R p.items q.items
  ended : q.ended = p.ended
  notes : q.notes = p.notes

/-- Searches in step that are pulled in the same way bring related items. -/
theorem InStep.pull {s : Search α} {t : Search β} (h : InStep R s t) (choice : Nat → Bool)
    (more forks : Nat) : (pull choice s more forks).Alike R (pull choice t more forks) := by
  induction h generalizing more forks with
  | done => exact ⟨.nil, rfl, rfl⟩
  | cut => exact ⟨.nil, rfl, rfl⟩
  | item ha _ ih =>
    cases more with
    | zero => exact ⟨.cons ha .nil, rfl, rfl⟩
    | succ more =>
      obtain ⟨hitems, hended, hnotes⟩ := ih more forks
      exact ⟨.cons ha hitems, hended, hnotes⟩
  | @note text _ _ _ ih =>
    obtain ⟨hitems, hended, hnotes⟩ := ih more forks
    exact ⟨hitems, hended, congrArg (text :: ·) hnotes⟩
  | fork _ _ ihl ihr =>
    rw [Search.pull, Search.pull]
    split
    · exact ihl more (forks + 1)
    · exact ihr more (forks + 1)

/-- Searches in step bring related items up to every limit. -/
theorem InStep.take {s : Unit → Search α} {t : Unit → Search β} (h : InStep R (s ()) (t ()))
    (choice : Nat → Bool) (limit : Nat) :
    (take choice limit s).Alike R (take choice limit t) := by
  cases limit with
  | zero => exact ⟨.nil, rfl, rfl⟩
  | succ more => exact h.pull choice more 0

/-! ## Combinators -/

/-- Two single items are in step if they are related. -/
theorem inStep_one {a : α} {b : β} (h : R a b) : InStep R (one a) (one b) := .item h .done

/-- Lists are in step if they are related item by item. -/
theorem inStep_ofList {as : List α} {bs : List β} (h : List.Forall₂ R as bs) :
    InStep R (ofList as) (ofList bs) := by
  induction h with
  | nil => exact .done
  | cons ha _ ih => exact .item ha ih

/-- Searches in step that are followed by searches in step stay so. -/
theorem InStep.append {s : Search α} {t : Search β} {s' : Unit → Search α} {t' : Unit → Search β}
    (h : InStep R s t) (h' : InStep R (s' ()) (t' ())) :
    InStep R (append s s') (append t t') := by
  induction h with
  | done => exact h'
  | cut => exact .cut
  | item ha _ ih => exact .item ha ih
  | note _ ih => exact .note ih
  | fork _ _ ihl ihr => exact .fork ihl ihr

/-- Searches in step stay so when related items are followed up in step. -/
theorem InStep.bind {s : Search α} {t : Search β} {f : α → Search γ} {g : β → Search δ}
    (h : InStep R s t) (hfg : ∀ a b, R a b → InStep S (f a) (g b)) :
    InStep S (bind s f) (bind t g) := by
  induction h with
  | done => exact .done
  | cut => exact .cut
  | item ha _ ih => exact (hfg _ _ ha).append ih
  | note _ ih => exact .note ih
  | fork _ _ ihl ihr => exact .fork ihl ihr

/-- Searches in step stay so when related items are changed to related ones. -/
theorem InStep.map {s : Search α} {t : Search β} {f : α → γ} {g : β → δ} (h : InStep R s t)
    (hfg : ∀ a b, R a b → S (f a) (g b)) : InStep S (map f s) (map g t) := by
  induction h with
  | done => exact .done
  | cut => exact .cut
  | item ha _ ih => exact .item (hfg _ _ ha) ih
  | note _ ih => exact .note ih
  | fork _ _ ihl ihr => exact .fork ihl ihr

/-- Only the items of the second search are changed. -/
theorem InStep.map_right {s : Search α} {t : Search β} {Q : α → δ → Prop} {g : β → δ}
    (h : InStep R s t) (hg : ∀ a b, R a b → Q a (g b)) : InStep Q s (Search.map g t) := by
  induction h with
  | done => exact .done
  | cut => exact .cut
  | item ha _ ih => exact .item (hg _ _ ha) ih
  | note _ ih => exact .note ih
  | fork _ _ ihl ihr => exact .fork ihl ihr

private theorem inStep_rightFirst {left : Unit → Search α} {left' : Unit → Search β}
    {resume : (Unit → Search α) → Search α} {resume' : (Unit → Search β) → Search β}
    (hleft : InStep R (left ()) (left' ()))
    (hresume : ∀ later later', InStep R (later ()) (later' ()) →
      InStep R (resume later) (resume' later'))
    {s : Search α} {t : Search β} (h : InStep R s t) :
    InStep R (rightFirst left resume s) (rightFirst left' resume' t) := by
  induction h with
  | done => exact hleft
  | cut => exact .cut
  | item ha hrest ih => exact .item ha (.fork (hresume _ _ hrest) ih)
  | note _ ih => exact .note ih
  | fork _ _ ihl ihr => exact .fork ihl ihr

private theorem inStep_leftFirst {s : Search α} {t : Search β} {right : Unit → Search α}
    {right' : Unit → Search β} (h : InStep R s t) (hright : InStep R (right ()) (right' ())) :
    InStep R (leftFirst s right) (leftFirst t right') := by
  induction h generalizing right right' with
  | done => exact hright
  | cut => exact .cut
  | item ha hrest ih =>
    exact .item ha (.fork (ih hright) (inStep_rightFirst hrest (fun _ _ => ih) hright))
  | note _ ih => exact .note (ih hright)
  | fork _ _ ihl ihr => exact .fork (ihl hright) (ihr hright)

/-- Interleaving keeps searches in step. -/
theorem InStep.merge {left right : Unit → Search α} {left' right' : Unit → Search β}
    (hleft : InStep R (left ()) (left' ())) (hright : InStep R (right ()) (right' ())) :
    InStep R (merge left right) (merge left' right') :=
  .fork (inStep_leftFirst hleft hright)
    (inStep_rightFirst hleft (fun _ _ => inStep_leftFirst hleft) hright)

section

variable {P Q : Env → Env → Prop} {s t : Search Item}

/-- A search under another one keeps in step if both of them do. -/
theorem InStep.under {f g : Env → Search Item} (h : InStep (Concur P) s t)
    (hfg : ∀ k k', P k k' → InStep (Concur Q) (f k) (g k')) :
    InStep (Concur Q) (s.under f) (t.under g) := by
  refine h.bind fun a b hab => ?_
  cases hab with
  | ok hk => exact hfg _ _ hk
  | error f => exact inStep_one (.error f)

/-- A negation keeps in step, with the environments that it hands back. -/
theorem InStep.absent {k k' : Env} (h : InStep (Concur P) s t) (hk : Q k k') :
    InStep (Concur Q) (s.absent k) (t.absent k') := by
  induction h with
  | done => exact inStep_one (.ok hk)
  | cut => exact .cut
  | item ha _ _ =>
    cases ha with
    | ok _ => exact .done
    | error f => exact inStep_one (.error f)
  | note _ ih => exact .note ih
  | fork _ _ ihl ihr => exact .fork ihl ihr

end

end Search

open Search

/-! ## Goals of the same shape -/

/-- The preludes have the same shape, and the definitions in the same place are related. -/
inductive Prelude.Shaped (A : Pattern → Pattern → Prop) : Prelude → Prelude → Prop
  | empty : Shaped A .empty .empty
  | define {t t' : Variable} {es es' : List Term} (h : A (t.definedBy es) (t'.definedBy es')) :
      Shaped A (.define t es) (.define t' es')
  | both {p p' q q' : Prelude} (hp : Shaped A p p') (hq : Shaped A q q') :
      Shaped A (.both p q) (.both p' q')

/-- The goals have the same shape, and the patterns and calls in the same place are related.
Neither of them asks a host. -/
inductive Goal.Shaped (A : Pattern → Pattern → Prop) (C : List Expr → List Expr → Prop) :
    Goal → Goal → Prop
  | truth : Shaped A C .truth .truth
  | falsity : Shaped A C .falsity .falsity
  | and {p p' q q' : Goal} (hp : Shaped A C p p') (hq : Shaped A C q q') :
      Shaped A C (.and p q) (.and p' q')
  | or {p p' q q' : Goal} (hp : Shaped A C p p') (hq : Shaped A C q q') :
      Shaped A C (.or p q) (.or p' q')
  | not {p p' : Goal} (hp : Shaped A C p p') : Shaped A C (.not p) (.not p')
  | apply {g g' : Pattern} (h : A g g') : Shaped A C (.apply g) (.apply g')
  | call {es es' : List Expr} (h : C es es') : Shaped A C (.call es) (.call es')

section

variable {A : Pattern → Pattern → Prop} {C : List Expr → List Expr → Prop}

/-- Preludes of the same shape are joined to preludes of the same shape. -/
theorem Prelude.Shaped.conj {p p' q q' : Prelude} (hp : p.Shaped A p') (hq : q.Shaped A q') :
    (p.conj q).Shaped A (p'.conj q') := by
  cases hp with
  | empty => exact hq
  | define h =>
    cases hq with
    | empty => exact .define h
    | define h' => exact .both (.define h) (.define h')
    | both hp' hq' => exact .both (.define h) (.both hp' hq')
  | both hp₁ hp₂ =>
    cases hq with
    | empty => exact .both hp₁ hp₂
    | define h' => exact .both (.both hp₁ hp₂) (.define h')
    | both hp' hq' => exact .both (.both hp₁ hp₂) (.both hp' hq')

/-- A goal that asks no host writes nothing down when it is started. -/
theorem Goal.opening_eq_nil {p : Goal} (h : p.HostFree) (k : Env) : p.opening k = [] := by
  induction p with
  | or p q ihp ihq => rw [opening, ihp h.1, ihq h.2, List.append_nil]
  | host g => exact h.elim
  | _ => rfl

/-- Goals of the same shape ask no host. -/
theorem Goal.Shaped.hostFree {p p' : Goal} (h : p.Shaped A C p') : p.HostFree ∧ p'.HostFree := by
  induction h with
  | truth => exact ⟨trivial, trivial⟩
  | falsity => exact ⟨trivial, trivial⟩
  | and _ _ ihp ihq => exact ⟨⟨ihp.1, ihq.1⟩, ihp.2, ihq.2⟩
  | or _ _ ihp ihq => exact ⟨⟨ihp.1, ihq.1⟩, ihp.2, ihq.2⟩
  | not _ ih => exact ih
  | apply _ => exact ⟨trivial, trivial⟩
  | call _ => exact ⟨trivial, trivial⟩

variable {applied applied' : Pattern → Env → Search Item} {R : Env → Env → Prop}

/-- Preludes of the same shape are explored in step, if their definitions are. -/
theorem Prelude.Shaped.inStep
    (happly : ∀ g g' k k', A g g' → R k k' → InStep (Concur R) (applied g k) (applied' g' k'))
    {p p' : Prelude} (h : p.Shaped A p') {k k' : Env} (hk : R k k') :
    InStep (Concur R) (p.explore applied k) (p'.explore applied' k') := by
  induction h generalizing k k' with
  | empty => exact inStep_one (.ok hk)
  | define h => exact happly _ _ _ _ h hk
  | both _ _ ihp ihq => exact (ihp hk).under fun _ _ => ihq

/-- Goals of the same shape are explored in step, if their patterns and calls are. -/
theorem Goal.Shaped.inStep {turns turns' : Nat}
    (happly : ∀ g g' k k', A g g' → R k k' → InStep (Concur R) (applied g k) (applied' g' k'))
    (hcall : ∀ es es' k k', C es es' → R k k' → InStep (Concur R)
      ((Goal.call es).explore applied turns k) ((Goal.call es').explore applied' turns' k'))
    {p p' : Goal} (h : p.Shaped A C p') {k k' : Env} (hk : R k k') :
    InStep (Concur R) (p.explore applied turns k) (p'.explore applied' turns' k') := by
  induction h generalizing k k' with
  | truth => exact inStep_one (.ok hk)
  | falsity => exact .done
  | and hp hq ihp ihq =>
    simp only [explore, opening_eq_nil hp.hostFree.1, opening_eq_nil hp.hostFree.2,
      opening_eq_nil hq.hostFree.1, opening_eq_nil hq.hostFree.2, noted]
    exact (ihp hk).under fun _ _ => ihq
  | or _ _ ihp ihq => exact (ihp hk).merge (ihq hk)
  | not hp ih =>
    simp only [explore, opening_eq_nil hp.hostFree.1, opening_eq_nil hp.hostFree.2, noted]
    exact (ih hk).absent hk
  | apply h => exact happly _ _ _ _ h hk
  | call h => exact hcall _ _ _ _ h hk

/-- A goal that asks no host is pulled as it is explored. -/
theorem Goal.solve_eq_take {p : Goal} (h : p.HostFree) (select : Selector) (depth limit : Nat)
    (choice : Nat → Bool) (k : Env) : p.solve select depth limit choice k =
      take choice limit fun _ => p.explore (select.applications depth) depth k := by
  simp [solve, opening_eq_nil h]

/-- A goal that asks no host is started as it is explored. -/
theorem Goal.start_eq_explore {p : Goal} (h : p.HostFree) (turns : Nat) (k : Env) :
    p.start applied turns k = p.explore applied turns k := by
  rw [start, opening_eq_nil h, noted]

end

end Deduction
