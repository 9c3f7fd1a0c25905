/-!
# Lazy searches

A search is a stream of items that is computed only as far as it is pulled. It
either ends, or was cut off by the bound under which it was built, or gives an
item and goes on. A note is written down when the search passes it. A fork leaves
the choice of the next step to whoever pulls, so one search holds every way in
which the items of two searches can be interleaved.
-/

namespace Deduction

/-- A stream of items that is computed only as far as it is pulled. -/
inductive Search (α : Type) where
  /-- The search has ended. -/
  | done
  /-- The search goes on beyond the bound it was built under. -/
  | cut
  /-- An item, and the search after it. -/
  | item (head : α) (rest : Unit → Search α)
  /-- A text to be written down, and the search after it. -/
  | note (text : String) (rest : Unit → Search α)
  /-- Two ways to go on. -/
  | fork (left right : Unit → Search α)

namespace Search

variable {α β : Type}

/-- The search with exactly one item. -/
def one (a : α) : Search α := item a fun _ => done

/-- The items of a list, in order. -/
def ofList : List α → Search α
  | [] => done
  | a :: as => item a fun _ => ofList as

/-- Writes down the texts before the search starts. -/
def noted (texts : List String) (s : Unit → Search α) : Search α :=
  match texts with
  | [] => s ()
  | t :: ts => note t fun _ => noted ts s

/-- Goes on with the second search where the first has ended. -/
def append : Search α → (Unit → Search α) → Search α
  | done, t => t ()
  | cut, _ => cut
  | item a rest, t => item a fun _ => append (rest ()) t
  | note s rest, t => note s fun _ => append (rest ()) t
  | fork l r, t => fork (fun _ => append (l ()) t) (fun _ => append (r ()) t)

/-- Runs a search for every item, one after the other. -/
def bind : Search α → (α → Search β) → Search β
  | done, _ => done
  | cut, _ => cut
  | item a rest, f => append (f a) fun _ => bind (rest ()) f
  | note s rest, f => note s fun _ => bind (rest ()) f
  | fork l r, f => fork (fun _ => bind (l ()) f) (fun _ => bind (r ()) f)

/-- Changes every item. -/
def map (f : α → β) : Search α → Search β
  | done => done
  | cut => cut
  | item a rest => item (f a) fun _ => map f (rest ())
  | note s rest => note s fun _ => map f (rest ())
  | fork l r => fork (fun _ => map f (l ())) (fun _ => map f (r ()))

@[simp] theorem append_done (s : Search α) : append s (fun _ => done) = s := by
  induction s with
  | done => rfl
  | cut => rfl
  | item a rest ih => simp [append, ih]
  | note t rest ih => simp [append, ih]
  | fork l r ihl ihr => simp [append, ihl, ihr]

/-- Three searches run one after another in the same way, whichever two are joined first. -/
theorem append_assoc (s : Search α) (t u : Unit → Search α) :
    append (append s t) u = append s fun _ => append (t ()) u := by
  induction s with
  | done => rfl
  | cut => rfl
  | item a rest ih => simp [append, ih]
  | note n rest ih => simp [append, ih]
  | fork l r ihl ihr => simp [append, ihl, ihr]

@[simp] theorem bind_one (a : α) (f : α → Search β) : bind (one a) f = f a := by
  simp [one, bind]

/-- Binding a search that is followed by another one binds both of them in turn. -/
theorem bind_append (s : Search α) (t : Unit → Search α) (f : α → Search β) :
    bind (append s t) f = append (bind s f) fun _ => bind (t ()) f := by
  induction s with
  | done => rfl
  | cut => rfl
  | item a rest ih => simp [append, bind, ih, append_assoc]
  | note n rest ih => simp [append, bind, ih]
  | fork l r ihl ihr => simp [append, bind, ihl, ihr]

/-- Two searches run for every item, one after the other, may be joined either way. -/
theorem bind_assoc {γ : Type} (s : Search α) (f : α → Search β) (g : β → Search γ) :
    bind (bind s f) g = bind s fun a => bind (f a) g := by
  induction s with
  | done => rfl
  | cut => rfl
  | item a rest ih => simp [bind, bind_append, ih]
  | note n rest ih => simp [bind, ih]
  | fork l r ihl ihr => simp [bind, ihl, ihr]

/-- Two lists, one emitted after the other, are emitted as one list. -/
theorem append_ofList (l l' : List α) :
    append (ofList l) (fun _ => ofList l') = ofList (l ++ l') := by
  induction l with
  | nil => rfl
  | cons a l ih => simp [ofList, append, ih]

/-- The items of lists, one list after the other. -/
theorem bind_ofList {γ : Type} {f : α → Search β} {g : γ → α} {h : γ → List β} {cs : List γ}
    (hf : ∀ c ∈ cs, f (g c) = ofList (h c)) :
    bind (ofList (cs.map g)) f = ofList (cs.flatMap h) := by
  induction cs with
  | nil => rfl
  | cons c cs ih =>
    have hrest := ih fun d hd => hf d (List.mem_cons_of_mem c hd)
    rw [List.map_cons, ofList, bind, hf c List.mem_cons_self, hrest, append_ofList,
      List.flatMap_cons]

/-! ## Interleaving -/

/-- Pulls the right one of two searches up to its next item; the left one waits, and
`resume` tells how to pull it instead. A search that has ended gives way to the other. -/
def rightFirst (left : Unit → Search α) (resume : (Unit → Search α) → Search α) :
    Search α → Search α
  | done => left ()
  | cut => cut
  | item a rest => item a fun _ =>
      fork (fun _ => resume rest) (fun _ => rightFirst left resume (rest ()))
  | note s rest => note s fun _ => rightFirst left resume (rest ())
  | fork l r =>
    fork (fun _ => rightFirst left resume (l ())) (fun _ => rightFirst left resume (r ()))

/-- Pulls the left one of two searches up to its next item; the right one waits. -/
def leftFirst : Search α → (Unit → Search α) → Search α
  | done, right => right ()
  | cut, _ => cut
  | item a rest, right => item a fun _ =>
      fork (fun _ => leftFirst (rest ()) right)
        (fun _ => rightFirst rest (fun later => leftFirst (rest ()) later) (right ()))
  | note s rest, right => note s fun _ => leftFirst (rest ()) right
  | fork l r, right =>
    fork (fun _ => leftFirst (l ()) right) (fun _ => leftFirst (r ()) right)

/-- Every way to interleave two searches: before each item either side may be pulled. -/
def merge (left right : Unit → Search α) : Search α :=
  fork (fun _ => leftFirst (left ()) right)
    (fun _ => rightFirst left (fun later => leftFirst (left ()) later) (right ()))

/-! ## Pulling -/

/-- What pulling a search has brought: items, whether its end was seen, and notes. -/
structure Pulled (α : Type) where
  items : List α
  ended : Bool
  notes : List String
  deriving Repr

/-- Pulls the next item and up to `more` items after it. The number of forks passed so
far decides, by `choice`, whether a fork goes on to its left side. -/
def pull (choice : Nat → Bool) : Search α → (more forks : Nat) → Pulled α
  | done, _, _ => ⟨[], true, []⟩
  | cut, _, _ => ⟨[], false, []⟩
  | item a _, 0, _ => ⟨[a], false, []⟩
  | item a rest, more + 1, forks =>
    let later := pull choice (rest ()) more forks
    { later with items := a :: later.items }
  | note s rest, more, forks =>
    let later := pull choice (rest ()) more forks
    { later with notes := s :: later.notes }
  | fork l r, more, forks =>
    if choice forks then pull choice (l ()) more (forks + 1)
    else pull choice (r ()) more (forks + 1)

/-- Pulls at most `limit` items; with no item wanted the search is not even started. -/
def take (choice : Nat → Bool) (limit : Nat) (s : Unit → Search α) : Pulled α :=
  match limit with
  | 0 => ⟨[], false, []⟩
  | more + 1 => pull choice (s ()) more 0

/-- Of a list as many items are pulled as are wanted, and its end is seen if it has fewer. -/
theorem take_ofList (choice : Nat → Bool) (limit : Nat) (l : List α) :
    take choice limit (fun _ => ofList l) = ⟨l.take limit, decide (l.length < limit), []⟩ := by
  have hpull : ∀ more forks, pull choice (ofList l) more forks =
      ⟨l.take (more + 1), decide (l.length < more + 1), []⟩ := by
    induction l with
    | nil => intro more forks; simp [ofList, pull]
    | cons a l ih =>
      intro more forks
      cases more with
      | zero => simp [ofList, pull]
      | succ more => simp [ofList, pull, ih]
  cases limit with
  | zero => simp [take]
  | succ more => exact hpull more 0

/-- Takes the left and the right side of forks in turn. -/
def alternate (forks : Nat) : Bool := forks % 2 == 0

end Search

end Deduction
