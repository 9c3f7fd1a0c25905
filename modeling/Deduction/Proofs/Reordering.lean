import Deduction.Proofs.Answer
import Deduction.Proofs.Occurrence
import Deduction.Proofs.Ways
import Deduction.Sample.Family
import Mathlib.Data.List.Perm.Basic

/-!
# The order of a search

In which order the rules are tried and how the sides of disjunctions are interleaved decides the
order of the solutions and nothing else, as long as nothing is negated and no fault is met. One
way through a search that comes to its end without a fault has passed everything there is: each
way through the search with the rules in another order ends as well, and passes the same
solutions equally often. A solution depends on the path of its derivation alone, and so do the
numbers of the variables issued on that path.
-/

namespace Deduction

namespace Search

variable {α β : Type}

/-- No way through the forks of a search is cut off. -/
def Uncut : Search α → Prop
  | done => True
  | cut => False
  | item _ rest | note _ rest => Uncut (rest ())
  | fork l r => Uncut (l ()) ∧ Uncut (r ())

namespace Uncut

variable {s : Search α}

/-- A search that is not cut off can be completed. -/
theorem exists_completes (h : s.Uncut) : ∃ as, Completes s as := by
  induction s with
  | done => exact ⟨[], .done⟩
  | cut => exact h.elim
  | item a rest ih =>
    obtain ⟨as, has⟩ := ih () h
    exact ⟨a :: as, .item has⟩
  | note n rest ih =>
    obtain ⟨as, has⟩ := ih () h
    exact ⟨as, .note has⟩
  | fork l r ihl _ =>
    obtain ⟨as, has⟩ := ihl () h.1
    exact ⟨as, .left has⟩

/-- The way to an emitted item can be completed. -/
theorem exists_completes_mem (h : s.Uncut) {a : α} (ha : Emits s a) :
    ∃ as, Completes s as ∧ a ∈ as := by
  induction ha with
  | @here a rest =>
    obtain ⟨as, has⟩ := exists_completes (s := rest ()) h
    exact ⟨_, .item has, List.mem_cons_self⟩
  | later _ ih =>
    obtain ⟨as, has, hmem⟩ := ih h
    exact ⟨_, .item has, List.mem_cons_of_mem _ hmem⟩
  | note _ ih =>
    obtain ⟨as, has, hmem⟩ := ih h
    exact ⟨as, .note has, hmem⟩
  | left _ ih =>
    obtain ⟨as, has, hmem⟩ := ih h.1
    exact ⟨as, .left has, hmem⟩
  | right _ ih =>
    obtain ⟨as, has, hmem⟩ := ih h.2
    exact ⟨as, .right has, hmem⟩

/-- Whatever decides the forks, it leads to the end. -/
theorem follow_ended (h : s.Uncut) (choice : Nat → Bool) (forks : Nat) :
    (follow choice s forks).2 = true := by
  induction s generalizing forks with
  | done => rfl
  | cut => exact h.elim
  | item a rest ih => exact ih () h forks
  | note n rest ih => exact ih () h forks
  | fork l r ihl ihr =>
    rw [follow]
    split
    · exact ihl () h.1 (forks + 1)
    · exact ihr () h.2 (forks + 1)

/-- With room for all items the end is seen. -/
theorem take_ended {s : Unit → Search α} (h : (s ()).Uncut) (choice : Nat → Bool) {limit : Nat}
    (hlength : ∀ as, Completes (s ()) as → as.length < limit) :
    (take choice limit s).ended = true := by
  have hseen := h.follow_ended choice 0
  have hway := brings_follow choice (s ()) 0
  rw [hseen] at hway
  rw [(take_eq_follow choice limit s).2, hseen, Bool.true_and, decide_eq_true_eq]
  exact hlength _ hway.completes

/-! ### Combinators -/

/-- Notes cut nothing off. -/
theorem noted {texts : List String} {s : Unit → Search α} (h : (s ()).Uncut) :
    (Search.noted texts s).Uncut := by
  induction texts with
  | nil => exact h
  | cons t ts ih => exact ih

/-- Searches that are not cut off can run one after the other. -/
theorem append {t : Unit → Search α} (h : s.Uncut) (ht : (t ()).Uncut) :
    (Search.append s t).Uncut := by
  induction s with
  | done => exact ht
  | cut => exact h.elim
  | item a rest ih => exact ih () h
  | note n rest ih => exact ih () h
  | fork l r ihl ihr => exact ⟨ihl () h.1, ihr () h.2⟩

/-- A search stays uncut when its items are followed up by uncut ones. -/
theorem bind {f : α → Search β} (h : s.Uncut) (hf : ∀ a, Emits s a → (f a).Uncut) :
    (Search.bind s f).Uncut := by
  induction s with
  | done => trivial
  | cut => exact h.elim
  | item a rest ih => exact (hf a .here).append (ih () h fun b hb => hf b (.later hb))
  | note n rest ih => exact ih () h fun b hb => hf b (.note hb)
  | fork l r ihl ihr =>
    exact ⟨ihl () h.1 fun b hb => hf b (.left hb), ihr () h.2 fun b hb => hf b (.right hb)⟩

/-- A search stays uncut when its items are changed. -/
theorem map {f : α → β} (h : s.Uncut) : (Search.map f s).Uncut := by
  induction s with
  | done => trivial
  | cut => exact h.elim
  | item a rest ih => exact ih () h
  | note n rest ih => exact ih () h
  | fork l r ihl ihr => exact ⟨ihl () h.1, ihr () h.2⟩

/-- A list is not cut off. -/
theorem ofList (as : List α) : (Search.ofList as).Uncut := by
  induction as with
  | nil => trivial
  | cons a as ih => exact ih

private theorem rightFirst {left : Unit → Search α} {resume : (Unit → Search α) → Search α}
    (hleft : (left ()).Uncut) (hresume : ∀ later, (later ()).Uncut → (resume later).Uncut)
    (h : s.Uncut) : (Search.rightFirst left resume s).Uncut := by
  induction s with
  | done => exact hleft
  | cut => exact h.elim
  | item a rest ih => exact ⟨hresume rest h, ih () h⟩
  | note n rest ih => exact ih () h
  | fork l r ihl ihr => exact ⟨ihl () h.1, ihr () h.2⟩

private theorem leftFirst {right : Unit → Search α} (h : s.Uncut) (hright : (right ()).Uncut) :
    (Search.leftFirst s right).Uncut := by
  induction s generalizing right with
  | done => exact hright
  | cut => exact h.elim
  | item a rest ih => exact ⟨ih () h hright, rightFirst h (fun _ => ih () h) hright⟩
  | note n rest ih => exact ih () h hright
  | fork l r ihl ihr => exact ⟨ihl () h.1 hright, ihr () h.2 hright⟩

/-- Interleaving cuts nothing off. -/
theorem merge {left right : Unit → Search α} (hleft : (left ()).Uncut)
    (hright : (right ()).Uncut) : (Search.merge left right).Uncut :=
  ⟨hleft.leftFirst hright, rightFirst hleft (fun _ => hleft.leftFirst) hright⟩

end Uncut

/-- A pull that sees the end had room for one more item. -/
theorem length_lt_of_take_ended {choice : Nat → Bool} {s : Unit → Search α} {limit : Nat}
    (h : (take choice limit s).ended = true) : (take choice limit s).items.length < limit := by
  obtain ⟨hitems, hended⟩ := take_eq_follow choice limit s
  rw [hended, Bool.and_eq_true, decide_eq_true_eq] at h
  rw [hitems]
  exact Nat.lt_of_le_of_lt (List.length_take_le' _ _) h.2

/-! ## One completion settles another search -/

/-- Once the first search was completed without a fault, in whatever way, it is settled what the
second one brings: each way through it comes to its end and passes the same items. -/
def Settles (s t : Search (Except Fault α)) : Prop :=
  ∀ as, Completes s as → (∀ f, .error f ∉ as) → t.Uncut ∧ ∀ bs, Completes t bs → bs.Perm as

variable {s t : Search (Except Fault α)}

/-- A search that is cut off settles every search, as it is never completed. -/
theorem settles_cut : Settles cut t := by
  intro as has
  cases has

/-- A search that is over settles a search that is over. -/
theorem settles_done : Settles (done : Search (Except Fault α)) done := by
  intro as has _
  cases has
  exact ⟨trivial, fun bs hbs => by cases hbs; exact .refl _⟩

/-- The same item can be put ahead of searches that settle one another. -/
theorem Settles.item {a : Except Fault α} {rest rest' : Unit → Search (Except Fault α)}
    (h : Settles (rest ()) (rest' ())) : Settles (item a rest) (item a rest') := by
  intro as has hok
  cases has with
  | item has =>
    obtain ⟨hcut, hperm⟩ := h _ has fun f hf => hok f (List.mem_cons_of_mem a hf)
    refine ⟨hcut, fun bs hbs => ?_⟩
    cases hbs with
    | item hbs => exact (hperm _ hbs).cons a

/-- A single item settles itself. -/
theorem settles_one (a : Except Fault α) : Settles (one a) (one a) := settles_done.item

/-- Notes have no say in what a search settles. -/
theorem Settles.noted {texts texts' : List String} {s t : Unit → Search (Except Fault α)}
    (h : Settles (s ()) (t ())) : Settles (noted texts s) (noted texts' t) := by
  intro as has hok
  obtain ⟨hcut, hperm⟩ := h as (completes_noted_iff.mp has) hok
  exact ⟨hcut.noted, fun bs hbs => hperm bs (completes_noted_iff.mp hbs)⟩

/-- Lists in different orders settle one another. -/
theorem settles_ofList {as bs : List (Except Fault α)}
    (h : (∀ f, .error f ∉ as) → bs.Perm as) : Settles (ofList as) (ofList bs) := by
  intro cs hcs hok
  rw [completes_ofList hcs] at hok ⊢
  exact ⟨.ofList bs, fun ds hds => by rw [completes_ofList hds]; exact h hok⟩

/-- Interleaved searches settle the interleaving of what they settle. -/
theorem Settles.merge {left right left' right' : Unit → Search (Except Fault α)}
    (hleft : Settles (left ()) (left' ())) (hright : Settles (right ()) (right' ())) :
    Settles (merge left right) (merge left' right') := by
  intro as has hok
  obtain ⟨ls, rs, hls, hrs, hperm⟩ := completes_merge has
  have hoks : ∀ f, .error f ∉ ls ∧ .error f ∉ rs := fun f =>
    not_or.mp fun hf => hok f (hperm.mem_iff.mpr (List.mem_append.mpr hf))
  obtain ⟨hcutl, hperml⟩ := hleft ls hls fun f => (hoks f).1
  obtain ⟨hcutr, hpermr⟩ := hright rs hrs fun f => (hoks f).2
  refine ⟨hcutl.merge hcutr, fun bs hbs => ?_⟩
  obtain ⟨ls', rs', hls', hrs', hperm'⟩ := completes_merge hbs
  exact hperm'.trans (((hperml ls' hls').append (hpermr rs' hrs')).trans hperm.symm)

/-- Parts that are reordered one by one have reordered joints. -/
private theorem perm_flatten {P : α → List β → Prop} {as : List α} {parts parts' : List (List β)}
    (h : List.Forall₂ (fun a part => ∀ part', P a part' → part'.Perm part) as parts)
    (h' : List.Forall₂ P as parts') : parts'.flatten.Perm parts.flatten := by
  induction h generalizing parts' with
  | nil => cases h'; exact .refl _
  | cons ha _ ih =>
    cases h' with
    | cons ha' h' => exact (ha _ ha').append (ih h')

/-- If no fault comes of the items, none of them is a fault, and what is run for each of them
is settled. -/
private theorem settled_parts {f g : Except Fault α → Search (Except Fault β)}
    {as : List (Except Fault α)} {parts : List (List (Except Fault β))}
    (hfault : ∀ e, f (.error e) = one (.error e))
    (hfg : ∀ a, .ok a ∈ as → Settles (f (.ok a)) (g (.ok a)))
    (hparts : List.Forall₂ (fun a part => Completes (f a) part) as parts)
    (hok : ∀ e, .error e ∉ parts.flatten) :
    List.Forall₂ (fun a part => ((∃ b, a = .ok b) ∧ (g a).Uncut) ∧
      ∀ part', Completes (g a) part' → part'.Perm part) as parts := by
  induction hparts with
  | nil => exact .nil
  | @cons a part as parts ha _ ih =>
    have hoka : ∀ e, .error e ∉ part := fun e he => hok e (List.mem_append_left _ he)
    have hrest := ih (fun b hb => hfg b (List.mem_cons_of_mem a hb))
      fun e he => hok e (List.mem_append_right _ he)
    cases a with
    | error e =>
      rw [hfault] at ha
      rw [completes_one ha] at hoka
      exact absurd List.mem_cons_self (hoka e)
    | ok b =>
      obtain ⟨hcut, hperm⟩ := hfg b List.mem_cons_self part ha hoka
      exact .cons ⟨⟨⟨b, rfl⟩, hcut⟩, hperm⟩ hrest

/-- What is run under the items of two searches, the faults among them being handed on. -/
theorem Settles.bind {f g : Except Fault α → Search (Except Fault β)} (h : Settles s t)
    (hfault : ∀ e, f (.error e) = one (.error e))
    (hfg : ∀ a, Emits s (.ok a) → Settles (f (.ok a)) (g (.ok a))) :
    Settles (bind s f) (bind t g) := by
  intro cs hcs hok
  obtain ⟨as, parts, has, hparts, rfl⟩ := completes_bind hcs
  have hsettled := settled_parts hfault (fun a ha => hfg a (has.emits ha)) hparts hok
  obtain ⟨hmem, hparts⟩ := (List.forall₂_and_left as parts).mp hsettled
  obtain ⟨hcut, hperm⟩ := h as has fun e he => by
    obtain ⟨⟨b, hb⟩, _⟩ := hmem _ he
    cases hb
  -- the other search has the same items, so nothing is run that was not settled with these
  refine ⟨hcut.bind fun a ha => ?_, fun ds hds => ?_⟩
  · obtain ⟨bs, hbs, ha⟩ := hcut.exists_completes_mem ha
    exact (hmem a ((hperm bs hbs).mem_iff.mp ha)).2
  · obtain ⟨bs, parts', hbs, hparts', rfl⟩ := completes_bind hds
    obtain ⟨reordered, hreordered, hflatten⟩ := List.perm_comp_forall₂ (hperm bs hbs) hparts
    exact (perm_flatten hreordered hparts').trans hflatten.flatten

/-- A search under another one settles what is settled by both of them. -/
theorem Settles.under {s t : Search Item} {f g : Env → Search Item} (h : Settles s t)
    (hfg : ∀ k, Settles (f k) (g k)) : Settles (s.under f) (t.under g) :=
  Settles.bind h (fun _ => rfl) fun k _ => hfg k

/-- Searches still settle one another when items are changed alike and faults stay faults. -/
theorem Settles.map {f : Except Fault α → Except Fault β} (h : Settles s t)
    (hf : ∀ e, ∃ e', f (.error e) = .error e') : Settles (map f s) (map f t) := by
  intro bs hbs hok
  obtain ⟨as, has, rfl⟩ := completes_map hbs
  obtain ⟨hcut, hperm⟩ := h as has fun e he => by
    obtain ⟨e', he'⟩ := hf e
    exact hok e' (List.mem_map.mpr ⟨_, he, he'⟩)
  refine ⟨hcut.map, fun cs hcs => ?_⟩
  obtain ⟨as', has', rfl⟩ := completes_map hcs
  exact (hperm as' has').map f

end Search

open Search

/-! ## Goals and rules -/

/-- There is only one way through the answers of a host goal. -/
theorem Host.settles_answers (h : Host) (bound : Nat) (k : Env) :
    Settles (h.answers bound k) (h.answers bound k) := by
  have hfrom : ∀ bound n, Settles (Host.turnsFrom (h.turn k) bound n)
      (Host.turnsFrom (h.turn k) bound n) := by
    intro bound
    induction bound with
    | zero => exact fun n => settles_cut
    | succ bound ih =>
      intro n
      rw [Host.turnsFrom]
      split
      · exact settles_done
      · refine Settles.noted ?_
        split
        · exact ih (n + 1)
        · exact (ih (n + 1)).item
        · exact (ih (n + 1)).item
  exact hfrom bound 0

section

variable {applied applied' : Pattern → Env → Search Item}

/-- A prelude is settled, if the applications of its definitions are. -/
theorem Prelude.settles_explore (happlied : ∀ g k, Settles (applied g k) (applied' g k))
    (prelude : Prelude) (k : Env) :
    Settles (prelude.explore applied k) (prelude.explore applied' k) := by
  induction prelude generalizing k with
  | empty => exact settles_one _
  | define t es => exact happlied _ k
  | both p q ihp ihq => exact (ihp k).under ihq

/-- The exploration of a goal settles its exploration with rules in another order. -/
theorem Goal.settles_explore (happlied : ∀ g k, Settles (applied g k) (applied' g k))
    (turns : Nat) {p : Goal} (hp : p.Affirmative) (k : Env) :
    Settles (p.explore applied turns k) (p.explore applied' turns k) := by
  induction p generalizing k with
  | truth => exact settles_one _
  | falsity => exact settles_done
  | and p q ihp ihq => exact (Settles.noted (ihp hp.1 k)).under fun k' => .noted (ihq hp.2 k')
  | or p q ihp ihq => exact (ihp hp.1 k).merge (ihq hp.2 k)
  | not p _ => exact hp.elim
  | apply g => exact happlied g k
  | call es =>
    simp only [Goal.explore]
    split
    · exact settles_one _
    · exact (Prelude.settles_explore happlied _ _).under (happlied _)
  | host h => exact h.settles_answers turns k

end

namespace Program

variable {program program' : Program} {g : Pattern} {k : Env}

/-- A selection without a fault has tried every rule. -/
theorem matchGoal_eq_ok_of_select (h : ∀ f, .error f ∉ program.select g k) {r : Rule}
    (hr : r ∈ program) : ∃ m, r.matchGoal g k = .ok m := by
  induction program with
  | nil => cases hr
  | cons r' rs ih =>
    rw [select] at h
    cases hm : r'.matchGoal g k with
    | error f => simp [hm] at h
    | ok m =>
      rcases List.mem_cons.mp hr with rfl | hr
      · exact ⟨m, hm⟩
      · exact ih (fun f hf => h f (by cases m <;> simp [hm, hf])) hr

/-- If all rules can be tried, the matches are selected one by one. -/
theorem select_eq_filterMap (h : ∀ r ∈ program, ∃ m, r.matchGoal g k = .ok m) :
    program.select g k = program.filterMap fun r => (r.matchGoal g k).toOption.join.map .ok := by
  induction program with
  | nil => rfl
  | cons r rs ih =>
    have hrest := ih fun r' hr' => h r' (List.mem_cons_of_mem r hr')
    obtain ⟨m, hm⟩ := h r List.mem_cons_self
    cases m with
    | none => simp [select, hm, hrest, Except.toOption]
    | some m => simp [select, hm, hrest, Except.toOption]

/-- A selection without a fault settles the selection from the same rules in another order. -/
theorem settles_select (hperm : program.Perm program') :
    Settles (ofList (program.select g k)) (ofList (program'.select g k)) := by
  refine settles_ofList fun hok => ?_
  have htried : ∀ r ∈ program, ∃ m, r.matchGoal g k = .ok m :=
    fun r => matchGoal_eq_ok_of_select hok
  rw [select_eq_filterMap htried,
    select_eq_filterMap fun r hr => htried r (hperm.mem_iff.mpr hr)]
  exact hperm.symm.filterMap _

/-- At every depth, the applications of rules in one order settle those in another order. -/
theorem settles_applications (hperm : program.Perm program') (hprogram : program.Affirmative)
    (depth : Nat) (g : Pattern) (k : Env) :
    Settles (Selector.applications program.select depth g k)
      (Selector.applications program'.select depth g k) := by
  induction depth generalizing g k with
  | zero => exact settles_cut
  | succ depth ih =>
    rw [Selector.applications, Selector.applications]
    refine (settles_select hperm).bind (fun _ => rfl) fun m hm => ?_
    have hbody := hprogram _ (matchGoal_of_mem_select (mem_of_emits_ofList hm)).1
    have hstart : Settles
        (m.rule.body.start (Selector.applications program.select depth) depth m.env)
        (m.rule.body.start (Selector.applications program'.select depth) depth m.env) :=
      .noted (Goal.settles_explore ih depth hbody m.env)
    exact hstart.map fun e => ⟨e, rfl⟩

end Program

/-- If a search without negation has come to its end and met no fault, the same search with the
rules in any other order, its disjunctions interleaved in any other way, comes to its end, too,
meets no fault, and brings the same environments equally often. -/
theorem Goal.solve_perm {program program' : Program} {goal : Goal} {k : Env} {depth limit : Nat}
    {choice : Nat → Bool} (hprogram : program.Affirmative) (hgoal : goal.Affirmative)
    (hperm : program.Perm program')
    (hended : (goal.solve program.select depth limit choice k).ended = true)
    (hok : ∀ f, .error f ∉ (goal.solve program.select depth limit choice k).items)
    (choice' : Nat → Bool) :
    (goal.solve program'.select depth limit choice' k).ended = true ∧
      (∀ f, .error f ∉ (goal.solve program'.select depth limit choice' k).items) ∧
      (goal.solve program'.select depth limit choice' k).items.Perm
        (goal.solve program.select depth limit choice k).items := by
  obtain ⟨hcut, hsettled⟩ := Goal.settles_explore
    (Program.settles_applications hperm hprogram depth) depth hgoal k _
    (completes_of_take_ended hended) hok
  have hlimit := length_lt_of_take_ended hended
  have hended' : (goal.solve program'.select depth limit choice' k).ended = true :=
    hcut.take_ended choice' fun bs hbs => (hsettled bs hbs).length_eq ▸ hlimit
  have hitems := hsettled _ (completes_of_take_ended hended')
  exact ⟨hended', fun f hf => hok f (hitems.mem_iff.mp hf), hitems⟩

namespace Sample

/-- The family with the rule for grandparents first, and the facts from the last to the first. -/
def familyBackwards : Program := family.reverse

/-- Asks for a child or a grandchild of tom. -/
def descendantOfTom : Goal :=
  .or (.apply (grandparentOf (.const (.atom "tom")) (.var (.named "who"))))
    (.apply (parentOf (.const (.atom "tom")) (.var (.named "who"))))

/-- No body has a negation. -/
theorem family_affirmative : family.Affirmative := by
  simp [Program.Affirmative, family, parentFact, Rule.fact, Goal.all, Goal.conj,
    Goal.Affirmative]

/-- With the rules backwards and the right side pulled first, the same five descendants are
found, in another order. -/
theorem descendants_perm :
    (descendantOfTom.solve familyBackwards.select 2 9 (fun _ => false)
      (.declaring [.named "who"])).items ≠
      (descendantOfTom.solve family.select 2 9 alternate (.declaring [.named "who"])).items ∧
    (descendantOfTom.solve family.select 2 9 alternate (.declaring [.named "who"])).items.length
      = 5 ∧
    (descendantOfTom.solve familyBackwards.select 2 9 (fun _ => false)
      (.declaring [.named "who"])).ended = true ∧
    (∀ f, .error f ∉ (descendantOfTom.solve familyBackwards.select 2 9 (fun _ => false)
      (.declaring [.named "who"])).items) ∧
    (descendantOfTom.solve familyBackwards.select 2 9 (fun _ => false)
      (.declaring [.named "who"])).items.Perm
      (descendantOfTom.solve family.select 2 9 alternate (.declaring [.named "who"])).items := by
  have hended : (descendantOfTom.solve family.select 2 9 alternate
      (.declaring [.named "who"])).ended = true := by decide +kernel
  have hok : ∀ i ∈ (descendantOfTom.solve family.select 2 9 alternate
      (.declaring [.named "who"])).items, i.toOption.isSome := by decide +kernel
  have hgoal : descendantOfTom.Affirmative := ⟨trivial, trivial⟩
  have hbackwards : family.Perm familyBackwards := (List.reverse_perm family).symm
  exact ⟨by decide +kernel, by decide +kernel, Goal.solve_perm family_affirmative hgoal
    hbackwards hended (fun f hf => by cases hok _ hf) fun _ => false⟩

end Sample

end Deduction
