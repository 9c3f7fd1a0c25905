import Deduction.Proofs.Straight
import Deduction.Sample.Family

/-!
# Simplified programs

The combinators that leave out truths and falsities can be used throughout a goal and in the body of
every rule: the search brings the same items and comes to the same end. A disjunction with a falsity
leaves forks behind at which both sides are the same, so a search is compared with the search that
has no such forks. Notes are not compared, as the left-out parts move the point at which a goal is
started.
-/

namespace Deduction

/-! ## Simplified goals -/

/-- The goal rebuilt from its parts by the combinators that simplify. -/
def Goal.simplified : Goal → Goal
  | truth => truth
  | falsity => falsity
  | and p q => conj p.simplified q.simplified
  | or p q => disj p.simplified q.simplified
  | not p => neg p.simplified
  | apply g => apply g
  | call es => call es
  | host h => host h

/-- The rule with a simplified body. -/
def Rule.simplified (r : Rule) : Rule := { r with body := r.body.simplified }

/-- The match of the simplified rule. -/
def Match.simplified (m : Match) : Match := { m with rule := m.rule.simplified }

/-- The program of the simplified rules. -/
def Program.simplified (program : Program) : Program := program.map Rule.simplified

/-- Bodies have no say in the selection of rules. -/
theorem Program.select_simplified (program : Program) (g : Pattern) (k : Env) :
    program.simplified.select g k = (program.select g k).map (Except.map Match.simplified) :=
  select_mapBody Goal.simplified program g k

namespace Search

variable {α β : Type}

/-! ## Idle forks -/

/-- The second search is the first one without some of its idle forks, whose sides lead to the same.
Notes may stand anywhere in both of them. -/
inductive Tidies : Search α → Search α → Prop
  | done : Tidies done done
  | cut : Tidies cut cut
  | item {a : α} {s t : Unit → Search α} (h : Tidies (s ()) (t ())) : Tidies (item a s) (item a t)
  | fork {l r l' r' : Unit → Search α} (hl : Tidies (l ()) (l' ())) (hr : Tidies (r ()) (r' ())) :
      Tidies (fork l r) (fork l' r')
  | idle {l r : Unit → Search α} {t : Search α} (hl : Tidies (l ()) t) (hr : Tidies (r ()) t) :
      Tidies (fork l r) t
  | noteLeft {text : String} {s : Unit → Search α} {t : Search α} (h : Tidies (s ()) t) :
      Tidies (note text s) t
  | noteRight {text : String} {s : Search α} {t : Unit → Search α} (h : Tidies s (t ())) :
      Tidies s (note text t)

/-- The ways through an item are those through the rest, with the item ahead. -/
theorem exists_follow_item_iff {a : α} {rest : Unit → Search α} {forks : Nat}
    {way : List α × Bool} : (∃ choice, follow choice (item a rest) forks = way) ↔
      ∃ later, (∃ choice, follow choice (rest ()) forks = later) ∧ later.map (a :: ·) id = way := by
  constructor
  · rintro ⟨choice, rfl⟩
    exact ⟨_, ⟨choice, rfl⟩, rfl⟩
  · rintro ⟨_, ⟨choice, rfl⟩, rfl⟩
    exact ⟨choice, rfl⟩

/-- The ways through a fork are those through its left side and those through its right side. -/
theorem exists_follow_fork_iff {l r : Unit → Search α} {forks : Nat} {way : List α × Bool} :
    (∃ choice, follow choice (fork l r) forks = way) ↔
      (∃ choice, follow choice (l ()) (forks + 1) = way) ∨
        ∃ choice, follow choice (r ()) (forks + 1) = way := by
  constructor
  · rintro ⟨choice, rfl⟩
    cases hside : choice forks with
    | true => exact Or.inl ⟨choice, by simp [follow, hside]⟩
    | false => exact Or.inr ⟨choice, by simp [follow, hside]⟩
  · rintro (⟨choice, rfl⟩ | ⟨choice, rfl⟩)
    · exact exists_follow_fork choice forks true
    · exact exists_follow_fork choice forks false

namespace Tidies

variable {s t : Search α}

/-- Every search is as tidy as itself. -/
theorem refl (s : Search α) : Tidies s s := by
  induction s with
  | done => exact .done
  | cut => exact .cut
  | item a rest ih => exact .item (ih ())
  | note text rest ih => exact .noteLeft (.noteRight (ih ()))
  | fork l r ihl ihr => exact .fork (ihl ()) (ihr ())

/-- A note at the front may be left out. -/
theorem of_note {text : String} {s : Unit → Search α} (h : Tidies (note text s) t) :
    Tidies (s ()) t := by
  generalize hfront : note text s = u at h
  induction h with
  | noteLeft h =>
    cases hfront
    exact h
  | noteRight _ ih => exact .noteRight (ih hfront)
  | _ => cases hfront

/-- Tidying in two stages is tidying. -/
theorem trans {u : Search α} (h : Tidies s t) (h' : Tidies t u) : Tidies s u := by
  induction h generalizing u with
  | done => exact h'
  | cut => exact h'
  | @item a s t _ ih =>
    generalize hfront : Search.item a t = x at h'
    induction h' with
    | item h' =>
      cases hfront
      exact .item (ih h')
    | noteRight _ ih' => exact .noteRight (ih' hfront)
    | _ => cases hfront
  | @fork l r l' r' _ _ ihl ihr =>
    generalize hfront : Search.fork l' r' = x at h'
    induction h' with
    | fork hl' hr' =>
      cases hfront
      exact .fork (ihl hl') (ihr hr')
    | idle hl' hr' =>
      cases hfront
      exact .idle (ihl hl') (ihr hr')
    | noteRight _ ih' => exact .noteRight (ih' hfront)
    | _ => cases hfront
  | idle _ _ ihl ihr => exact .idle (ihl h') (ihr h')
  | noteLeft _ ih => exact .noteLeft (ih h')
  | noteRight _ ih => exact ih h'.of_note

/-- Whatever decides the forks of the one search, something decides those of the other one that
leads along the same items to the same end. -/
theorem exists_follow_iff (h : Tidies s t) (forks forks' : Nat) (way : List α × Bool) :
    (∃ choice, follow choice s forks = way) ↔ ∃ choice, follow choice t forks' = way := by
  induction h generalizing forks forks' way with
  | done => simp only [follow]
  | cut => simp only [follow]
  | item _ ih => simp only [exists_follow_item_iff, ih forks forks']
  | fork _ _ ihl ihr =>
    rw [exists_follow_fork_iff, exists_follow_fork_iff, ihl (forks + 1) (forks' + 1),
      ihr (forks + 1) (forks' + 1)]
  | idle _ _ ihl ihr =>
    rw [exists_follow_fork_iff, ihl (forks + 1) forks', ihr (forks + 1) forks', or_self]
  | noteLeft _ ih => exact ih forks forks' way
  | noteRight _ ih => exact ih forks forks' way

/-- A search that never forks has no idle fork either. -/
theorem straight (h : Tidies s t) (hs : s.Straight) : t.Straight := by
  induction h with
  | done => trivial
  | cut => trivial
  | item _ ih => exact ih hs
  | fork => exact hs.elim
  | idle => exact hs.elim
  | noteLeft _ ih => exact ih hs
  | noteRight _ ih => exact ih hs

/-! ### Combinators -/

/-- Notes can be dropped or exchanged when a search is tidied. -/
theorem noted {s t : Unit → Search α} (h : Tidies (s ()) (t ())) (texts texts' : List String) :
    Tidies (Search.noted texts s) (Search.noted texts' t) := by
  induction texts with
  | nil =>
    induction texts' with
    | nil => exact h
    | cons text texts' ih => exact .noteRight ih
  | cons text texts ih => exact .noteLeft ih

/-- Searches that run one after the other can both be tidied. -/
theorem append {s' t' : Unit → Search α} (h : Tidies s t) (h' : Tidies (s' ()) (t' ())) :
    Tidies (Search.append s s') (Search.append t t') := by
  induction h with
  | done => exact h'
  | cut => exact .cut
  | item _ ih => exact .item ih
  | fork _ _ ihl ihr => exact .fork ihl ihr
  | idle _ _ ihl ihr => exact .idle ihl ihr
  | noteLeft _ ih => exact .noteLeft ih
  | noteRight _ ih => exact .noteRight ih

/-- The searches that follow up the items can be tidied, too. -/
theorem bind {f g : α → Search β} (h : Tidies s t) (hfg : ∀ a, Tidies (f a) (g a)) :
    Tidies (Search.bind s f) (Search.bind t g) := by
  induction h with
  | done => exact .done
  | cut => exact .cut
  | item _ ih => exact (hfg _).append ih
  | fork _ _ ihl ihr => exact .fork ihl ihr
  | idle _ _ ihl ihr => exact .idle ihl ihr
  | noteLeft _ ih => exact .noteLeft ih
  | noteRight _ ih => exact .noteRight ih

/-- Tidying commutes with changes of the items. -/
theorem map (f : α → β) (h : Tidies s t) : Tidies (Search.map f s) (Search.map f t) := by
  rw [map_eq_bind, map_eq_bind]
  exact h.bind fun a => refl _

/-- A search under another one can be tidied with it. -/
theorem under {s t : Search Item} {f g : Env → Search Item} (h : Tidies s t)
    (hfg : ∀ k, Tidies (f k) (g k)) : Tidies (s.under f) (t.under g) := by
  refine bind h fun i => ?_
  cases i with
  | ok k => exact hfg k
  | error e => exact refl _

/-- A negated search can be tidied. -/
theorem absent {s t : Search Item} (h : Tidies s t) (k : Env) :
    Tidies (s.absent k) (t.absent k) := by
  induction h with
  | done => exact refl _
  | cut => exact .cut
  | @item i _ _ _ _ =>
    cases i with
    | ok _ => exact .done
    | error f => exact refl _
  | fork _ _ ihl ihr => exact .fork ihl ihr
  | idle _ _ ihl ihr => exact .idle ihl ihr
  | noteLeft _ ih => exact .noteLeft ih
  | noteRight _ ih => exact .noteRight ih

private theorem rightFirst {left left' : Unit → Search α}
    {resume resume' : (Unit → Search α) → Search α} (hleft : Tidies (left ()) (left' ()))
    (hresume : ∀ later later', Tidies (later ()) (later' ()) →
      Tidies (resume later) (resume' later')) (h : Tidies s t) :
    Tidies (Search.rightFirst left resume s) (Search.rightFirst left' resume' t) := by
  induction h with
  | done => exact hleft
  | cut => exact .cut
  | item hrest ih => exact .item (.fork (hresume _ _ hrest) ih)
  | fork _ _ ihl ihr => exact .fork ihl ihr
  | idle _ _ ihl ihr => exact .idle ihl ihr
  | noteLeft _ ih => exact .noteLeft ih
  | noteRight _ ih => exact .noteRight ih

private theorem leftFirst {right right' : Unit → Search α} (h : Tidies s t)
    (hright : Tidies (right ()) (right' ())) :
    Tidies (Search.leftFirst s right) (Search.leftFirst t right') := by
  induction h generalizing right right' with
  | done => exact hright
  | cut => exact .cut
  | item hrest ih =>
    exact .item (.fork (ih hright) (rightFirst hrest (fun _ _ => ih) hright))
  | fork _ _ ihl ihr => exact .fork (ihl hright) (ihr hright)
  | idle _ _ ihl ihr => exact .idle (ihl hright) (ihr hright)
  | noteLeft _ ih => exact .noteLeft (ih hright)
  | noteRight _ ih => exact .noteRight (ih hright)

/-- Interleaved searches can both be tidied. -/
theorem merge {left right left' right' : Unit → Search α} (hleft : Tidies (left ()) (left' ()))
    (hright : Tidies (right ()) (right' ())) :
    Tidies (Search.merge left right) (Search.merge left' right') :=
  .fork (hleft.leftFirst hright) (rightFirst hleft (fun _ _ => hleft.leftFirst) hright)

end Tidies

/-! ## Parts that can be left out -/

/-- All forks that come from interleaving a search with one that has ended are idle. -/
theorem tidies_merge_done_left (right : Unit → Search α) :
    Tidies (merge (fun _ => done) right) (right ()) := by
  have hfirst : ∀ s : Search α,
      Tidies (rightFirst (fun _ => done) (fun later => leftFirst done later) s) s := by
    intro s
    induction s with
    | done => exact .done
    | cut => exact .cut
    | item a rest ih => exact .item (.idle (.refl (rest ())) (ih ()))
    | note text rest ih => exact .noteLeft (.noteRight (ih ()))
    | fork l r ihl ihr => exact .fork (ihl ()) (ihr ())
  exact .idle (.refl _) (hfirst _)

/-- A right side that is over can be dropped from an interleaving. -/
theorem tidies_merge_done_right (left : Unit → Search α) :
    Tidies (merge left fun _ => done) (left ()) := by
  have hfirst : ∀ s : Search α, Tidies (leftFirst s fun _ => done) s := by
    intro s
    induction s with
    | done => exact .done
    | cut => exact .cut
    | item a rest ih => exact .item (.idle (ih ()) (.refl (rest ())))
    | note text rest ih => exact .noteLeft (.noteRight (ih ()))
    | fork l r ihl ihr => exact .fork (ihl ()) (ihr ())
  exact .idle (hfirst _) (.refl _)

end Search

open Search

section

variable {applied applied' : Pattern → Env → Search Item} {turns : Nat}

namespace Goal

/-- A conjunction without its truths, or cut short at a leading falsity, is explored alike. -/
theorem tidies_conj (p q : Goal) (k : Env) :
    Tidies ((and p q).explore applied turns k) ((conj p q).explore applied turns k) := by
  have hquiet : ∀ (p : Goal) k, Tidies (noted (p.opening k) fun _ => p.explore applied turns k)
      (p.explore applied turns k) := fun p k => (Tidies.refl _).noted _ []
  unfold conj
  split
  · have hsecond : (and truth q).explore applied turns k =
        noted (q.opening k) fun _ => q.explore applied turns k := bind_one _ _
    exact hsecond ▸ hquiet q k
  · have hfirst : (and p truth).explore applied turns k =
        noted (p.opening k) fun _ => p.explore applied turns k := under_one _
    exact hfirst ▸ hquiet p k
  · exact .done
  · exact .refl _

/-- A disjunction without its falsities is explored alike. -/
theorem tidies_disj (p q : Goal) (k : Env) :
    Tidies ((or p q).explore applied turns k) ((disj p q).explore applied turns k) := by
  unfold disj
  split
  · exact tidies_merge_done_left _
  · exact tidies_merge_done_right _
  · exact .refl _

/-- The negation of a truth or of a falsity is explored as the other one. -/
theorem tidies_neg (p : Goal) (k : Env) :
    Tidies ((not p).explore applied turns k) ((neg p).explore applied turns k) := by
  unfold neg
  split
  · exact .done
  · exact .refl _
  · exact .refl _

end Goal

/-! ## Goals and rules -/

/-- A prelude is tidied, if the applications of its definitions are. -/
theorem Prelude.tidies_explore (happlied : ∀ g k, Tidies (applied g k) (applied' g k))
    (prelude : Prelude) (k : Env) :
    Tidies (prelude.explore applied k) (prelude.explore applied' k) := by
  induction prelude generalizing k with
  | empty => exact .refl _
  | define t es => exact happlied _ k
  | both p q ihp ihq => exact (ihp k).under ihq

namespace Goal

/-- A conjunction is tidied, if both of its sides are. -/
theorem tidies_and {p q p' q' : Goal}
    (hp : ∀ k, Tidies (p.explore applied turns k) (p'.explore applied' turns k))
    (hq : ∀ k, Tidies (q.explore applied turns k) (q'.explore applied' turns k)) (k : Env) :
    Tidies ((and p q).explore applied turns k) ((and p' q').explore applied' turns k) :=
  ((hp k).noted _ _).under fun k' => (hq k').noted _ _

/-- A simplified goal is explored alike, if its applications are. -/
theorem tidies_simplified (happlied : ∀ g k, Tidies (applied g k) (applied' g k)) (p : Goal)
    (k : Env) : Tidies (p.explore applied turns k) (p.simplified.explore applied' turns k) := by
  induction p generalizing k with
  | truth => exact .refl _
  | falsity => exact .refl _
  | and p q ihp ihq => exact (tidies_and ihp ihq k).trans (tidies_conj _ _ k)
  | or p q ihp ihq => exact ((ihp k).merge (ihq k)).trans (tidies_disj _ _ k)
  | not p ih => exact (((ih k).noted _ _).absent k).trans (tidies_neg _ k)
  | apply g => exact happlied g k
  | call es =>
    simp only [simplified, explore]
    split
    · exact .refl _
    · exact (Prelude.tidies_explore happlied _ _).under (happlied _)
  | host h => exact .refl _

/-- Conjunctions nested to the left, with and without the parts that can be left out. -/
theorem tidies_foldl_conj (ps : List Goal) {p p' : Goal}
    (hp : ∀ k, Tidies (p.explore applied turns k) (p'.explore applied turns k)) (k : Env) :
    Tidies ((ps.foldl and p).explore applied turns k)
      ((ps.foldl conj p').explore applied turns k) := by
  induction ps generalizing p p' with
  | nil => exact hp k
  | cons q ps ih =>
    exact ih fun k => (tidies_and hp (fun k => .refl _) k).trans (tidies_conj p' q k)

/-- Disjunctions nested to the left, with and without the parts that can be left out. -/
theorem tidies_foldl_disj (ps : List Goal) {p p' : Goal}
    (hp : ∀ k, Tidies (p.explore applied turns k) (p'.explore applied turns k)) (k : Env) :
    Tidies ((ps.foldl or p).explore applied turns k)
      ((ps.foldl disj p').explore applied turns k) := by
  induction ps generalizing p p' with
  | nil => exact hp k
  | cons q ps ih => exact ih fun k => ((hp k).merge (.refl _)).trans (tidies_disj p' q k)

end Goal

end

/-- The applications of the simplified rules, at every depth. -/
theorem Program.tidies_applications (program : Program) (depth : Nat) (g : Pattern) (k : Env) :
    Tidies (Selector.applications program.select depth g k)
      (Selector.applications program.simplified.select depth g k) := by
  induction depth generalizing g k with
  | zero => exact .refl _
  | succ depth ih =>
    rw [Selector.applications, Selector.applications, select_simplified]
    -- match by match, as a fault of the selection is handed on by both programs
    generalize program.select g k = selected
    induction selected with
    | nil => exact .refl _
    | cons i is ihis =>
      refine Tidies.append ?_ ihis
      cases i with
      | error f => exact .refl _
      | ok m => exact ((Goal.tidies_simplified ih m.rule.body m.env).noted _ _).map _

/-! ## Pulling -/

/-- The same items were brought, and both pulls have come to the end or both have not. -/
structure Search.Pulled.SameItems {α : Type} (p q : Pulled α) : Prop where
  items : q.items = p.items
  ended : q.ended = p.ended

/-- Whatever decides the forks in the one family of pulls, something decides those in the other one
such that the same items are brought up to every limit, with the same end. -/
def Search.PulledAlike {α : Type}
    (pulls pulls' : (limit : Nat) → (choice : Nat → Bool) → Pulled α) : Prop :=
  (∀ choice, ∃ choice', ∀ limit, (pulls limit choice).SameItems (pulls' limit choice')) ∧
  (∀ choice', ∃ choice, ∀ limit, (pulls limit choice).SameItems (pulls' limit choice'))

namespace Search

variable {α : Type} {s t : Unit → Search α}

/-- The same way through two searches brings the same items up to every limit. -/
theorem sameItems_take {choice choice' : Nat → Bool}
    (h : follow choice' (t ()) 0 = follow choice (s ()) 0) (limit : Nat) :
    (take choice limit s).SameItems (take choice' limit t) := by
  obtain ⟨hitems, hended⟩ := take_eq_follow choice limit s
  obtain ⟨hitems', hended'⟩ := take_eq_follow choice' limit t
  rw [h] at hitems' hended'
  exact ⟨hitems'.trans hitems.symm, hended'.trans hended.symm⟩

/-- All that can be pulled of a search can be pulled of the tidied one, and the other way around. -/
theorem Tidies.pulledAlike (h : Tidies (s ()) (t ())) :
    PulledAlike (fun limit choice => take choice limit s)
      (fun limit choice => take choice limit t) := by
  constructor
  · intro choice
    obtain ⟨choice', heq⟩ := (h.exists_follow_iff 0 0 _).mp ⟨choice, rfl⟩
    exact ⟨choice', sameItems_take heq⟩
  · intro choice'
    obtain ⟨choice, heq⟩ := (h.exists_follow_iff 0 0 _).mpr ⟨choice', rfl⟩
    exact ⟨choice, sameItems_take heq.symm⟩

/-- Where there are no forks, nothing has to be decided. -/
theorem Tidies.sameItems (h : Tidies (s ()) (t ())) (hs : (s ()).Straight)
    (choice choice' : Nat → Bool) (limit : Nat) :
    (take choice limit s).SameItems (take choice' limit t) := by
  obtain ⟨choice'', heq⟩ := (h.exists_follow_iff 0 0 _).mp ⟨choice, rfl⟩
  exact sameItems_take (((h.straight hs).follow_eq choice' choice'' 0 0).trans heq) limit

end Search

/-- All that can be pulled when the goal is solved, by the limit and by what decides the forks. -/
def Goal.pulls (p : Goal) (program : Program) (depth : Nat) (k : Env) (limit : Nat)
    (choice : Nat → Bool) : Pulled Item := p.solve program.select depth limit choice k

/-- Goals whose searches are tidied can be pulled for the same. -/
theorem Goal.pulledAlike_pulls {p p' : Goal} {program program' : Program} {depth : Nat} {k : Env}
    (h : Tidies (p.explore (Selector.applications program.select depth) depth k)
      (p'.explore (Selector.applications program'.select depth) depth k)) :
    PulledAlike (p.pulls program depth k) (p'.pulls program' depth k) := by
  obtain ⟨hforth, hback⟩ := Tidies.pulledAlike (s := fun _ => _) (t := fun _ => _) h
  constructor
  · intro choice
    obtain ⟨choice', hsame⟩ := hforth choice
    exact ⟨choice', fun limit => ⟨(hsame limit).items, (hsame limit).ended⟩⟩
  · intro choice'
    obtain ⟨choice, hsame⟩ := hback choice'
    exact ⟨choice, fun limit => ⟨(hsame limit).items, (hsame limit).ended⟩⟩

/-- A simplified goal is solved with the simplified program as the goal is with the program. The
same items come in the same order and with the same end: for each way to interleave the disjunctions
of the one there is one for the other, and without disjunctions there is nothing to interleave. In
particular the conjunction and the disjunction of a list are solved as the nested conjunctions and
disjunctions that leave nothing out, with or without the neutral goal at the front. -/
theorem Goal.solve_simplified (program : Program) (goal : Goal) (depth : Nat) (k : Env) :
    PulledAlike (goal.pulls program depth k)
      (goal.simplified.pulls program.simplified depth k) ∧
    (program.Undivided → goal.Undivided → ∀ choice choice' limit,
      (goal.pulls program depth k limit choice).SameItems
        (goal.simplified.pulls program.simplified depth k limit choice')) ∧
    (∀ ps, PulledAlike ((ps.foldl and truth).pulls program depth k)
      ((all ps).pulls program depth k)) ∧
    (∀ p ps, PulledAlike ((ps.foldl and p).pulls program depth k)
      ((all (p :: ps)).pulls program depth k)) ∧
    (∀ ps, PulledAlike ((ps.foldl or falsity).pulls program depth k)
      ((any ps).pulls program depth k)) ∧
    (∀ p ps, PulledAlike ((ps.foldl or p).pulls program depth k)
      ((any (p :: ps)).pulls program depth k)) := by
  have htidies : Tidies (goal.explore (Selector.applications program.select depth) depth k)
      (goal.simplified.explore (Selector.applications program.simplified.select depth) depth k) :=
    tidies_simplified (program.tidies_applications depth) goal k
  refine ⟨pulledAlike_pulls htidies, fun hprogram hgoal choice choice' limit => ?_,
    fun ps => pulledAlike_pulls (tidies_foldl_conj ps (fun k => .refl _) k),
    fun p ps => pulledAlike_pulls (tidies_foldl_conj ps (fun k => .refl _) k),
    fun ps => pulledAlike_pulls (tidies_foldl_disj ps (fun k => .refl _) k),
    fun p ps => pulledAlike_pulls (tidies_foldl_disj ps (fun k => .refl _) k)⟩
  have hstraight := straight_explore (Program.straight_applications hprogram depth) depth hgoal k
  obtain ⟨hitems, hended⟩ := Tidies.sameItems (s := fun _ => _) (t := fun _ => _) htidies hstraight
    choice choice' limit
  exact ⟨hitems, hended⟩

namespace Sample

/-- Two parent facts, and the rule for grandparents with more in its body than it needs. -/
def wordyFamily : Program := [
  parentFact "tom" "bob",
  parentFact "bob" "ann",
  ⟨grandparentOf (.var (.named "g")) (.var (.named "c")),
    .and
      (.and .truth (.call [written "g", .term (.keyword (.named "parent-of")), written "p"]))
      (.and (.call [written "p", .term (.keyword (.named "parent-of")), written "c"])
        (.not .falsity))⟩]

/-- Asks for a grandchild of tom, and that nothing false holds. -/
def wordyQuestion : Goal :=
  .and (.apply (grandparentOf (.const (.atom "tom")) (.var (.named "who"))))
    (.not (.and .falsity .truth))

/-- The grandchild is found, and found alike with all that is not needed left out. -/
theorem wordyQuestion_sameItems :
    wordyQuestion.simplified.same (.apply (grandparentOf (.const (.atom "tom"))
      (.var (.named "who")))) = true ∧
    (wordyQuestion.pulls wordyFamily 3 (.declaring [.named "who"]) 9 alternate).items.length = 1 ∧
    (wordyQuestion.pulls wordyFamily 3 (.declaring [.named "who"]) 9 alternate).SameItems
      (wordyQuestion.simplified.pulls wordyFamily.simplified 3 (.declaring [.named "who"]) 9
        fun _ => false) := by
  have hprogram : wordyFamily.Undivided := by
    simp [Program.Undivided, wordyFamily, parentFact, Rule.fact, Goal.Undivided]
  have hgoal : wordyQuestion.Undivided := by
    simp [wordyQuestion, Goal.Undivided]
  exact ⟨by decide +kernel, by decide +kernel,
    (Goal.solve_simplified wordyFamily wordyQuestion 3 (.declaring [.named "who"])).2.1
      hprogram hgoal alternate (fun _ => false) 9⟩

end Sample

end Deduction
