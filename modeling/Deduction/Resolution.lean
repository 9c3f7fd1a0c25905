import Deduction.Expansion
import Deduction.Rule

/-!
# Resolution

The solutions of a goal are the environments under which it holds, found lazily.
A goal is started first, which writes its opening notes, and explored when it is
pulled. Rules are applied down to a given depth; a search that would go deeper is
cut there, so a search without a cut has shown everything there is.
-/

namespace Deduction

/-- Runs a search under every solution; faults are handed on in their place. -/
def Search.under (s : Search Item) (f : Env → Search Item) : Search Item :=
  s.bind fun
    | .ok k => f k
    | .error e => .one (.error e)

/-- Holds once when a search has no solution, and ends with the first fault. Nothing
after the first item is computed. -/
def Search.absent (k : Env) : Search Item → Search Item
  | .done => .one (.ok k)
  | .cut => .cut
  | .item (.ok _) _ => .done
  | .item (.error f) _ => .one (.error f)
  | .note s rest => .note s fun _ => absent k (rest ())
  | .fork l r => .fork (fun _ => absent k (l ())) (fun _ => absent k (r ()))

/-- Solves the definitions of a prelude in order. -/
def Prelude.explore (applied : Pattern → Env → Search Item) : Prelude → Env → Search Item
  | .empty, k => .one (.ok k)
  | .define t es, k => applied (t.definedBy es) k
  | .both p q, k => (p.explore applied k).under (q.explore applied)

namespace Goal

/-- What starting a goal writes down: both sides of a disjunction are started with it. -/
def opening : Goal → Env → List String
  | or p q, k => p.opening k ++ q.opening k
  | host h, k => h.opening k
  | _, _ => []

/-- The solutions of a started goal, given those of rule applications and a bound on
the turns of host goals. -/
def explore (applied : Pattern → Env → Search Item) (turns : Nat) : Goal → Env → Search Item
  | truth, k => .one (.ok k)
  | falsity, _ => .done
  | and p q, k =>
    (Search.noted (p.opening k) fun _ => p.explore applied turns k).under fun k' =>
      .noted (q.opening k') fun _ => q.explore applied turns k'
  | or p q, k =>
    .merge (fun _ => p.explore applied turns k) (fun _ => q.explore applied turns k)
  | not p, k =>
    (Search.noted (p.opening k) fun _ => p.explore applied turns k).absent k
  | apply g, k => applied g k
  | call es, k =>
    match Expr.flattenPhrase es k with
    | .error f => .one (.error f)
    | .ok x => (x.prelude.explore applied x.env).under (applied x.terms)
  | host h, k => h.answers turns k

/-- A prelude is explored as the goal that it stands for. -/
theorem explore_toGoal (applied : Pattern → Env → Search Item) (turns : Nat) (p : Prelude)
    (k : Env) : p.toGoal.explore applied turns k = p.explore applied k := by
  have hopening : ∀ (q : Prelude) k, q.toGoal.opening k = [] := fun q k => by cases q <;> rfl
  induction p generalizing k with
  | empty => rfl
  | define t es => rfl
  | both p q ihp ihq =>
    simp only [Prelude.toGoal, explore, hopening, Search.noted, ihp, Prelude.explore]
    exact congrArg _ (funext fun k' => ihq k')

/-- The goal of a flattened phrase is explored as its definitions, and under them as the
application of its terms. -/
theorem explore_flatPhrase (applied : Pattern → Env → Search Item) (turns : Nat) (x : FlatPhrase)
    (k : Env) : x.goal.explore applied turns k =
      (x.prelude.explore applied k).under (applied x.terms) := by
  simp only [FlatPhrase.goal, ← explore_toGoal applied turns x.prelude]
  cases x.prelude with
  | empty => simp [Prelude.toGoal, conj, explore, Search.under]
  | define t es => simp [Prelude.toGoal, conj, explore, opening, Search.noted]
  | both p q => simp [Prelude.toGoal, conj, explore, opening, Search.noted]

/-- A call is explored as the goal of its flattened phrase. -/
theorem explore_call (applied : Pattern → Env → Search Item) (turns : Nat) {es : List Expr}
    {k : Env} {x : FlatPhrase} (h : Expr.flattenPhrase es k = .ok x) :
    (call es).explore applied turns k = x.goal.explore applied turns x.env := by
  simp only [explore, h, explore_flatPhrase]

/-- Starts a goal and explores it. -/
def start (applied : Pattern → Env → Search Item) (turns : Nat) (p : Goal) (k : Env) :
    Search Item :=
  .noted (p.opening k) fun _ => p.explore applied turns k

end Goal

/-- The solutions of one rule application: those of the body, handed back in the scope
of the environment in which the rule was applied. -/
def Match.solutions (body : Goal → Env → Search Item) (outer : Env) (m : Match) : Search Item :=
  (body m.rule.body m.env).map fun
    | .ok k => k.restore outer
    | .error f => .error f

/-- The solutions of the bodies of all rules whose condition matches a goal, with at
most `depth` rules nested in one another. -/
def Selector.applications (select : Selector) : (depth : Nat) → Pattern → Env → Search Item
  | 0, _, _ => .cut
  | depth + 1, g, k =>
    (Search.ofList (select g k)).bind fun
      | .ok m => m.solutions (Goal.start (applications select depth) depth) k
      | .error f => .one (.error f)

namespace Goal

/-- The solutions of a goal with at most `depth` rules nested in one another. -/
def solutions (p : Goal) (select : Selector) (depth : Nat) (k : Env) : Search Item :=
  p.start (select.applications depth) depth k

/-- Starts a goal and pulls at most `limit` of its solutions. -/
def solve (p : Goal) (select : Selector) (depth limit : Nat) (choice : Nat → Bool) (k : Env) :
    Search.Pulled Item :=
  let pulled := Search.take choice limit fun _ =>
    p.explore (select.applications depth) depth k
  { pulled with notes := p.opening k ++ pulled.notes }

/-- A depth that no search in practice reaches. -/
def ampleDepth : Nat := 1000000000

end Goal

end Deduction
