import Deduction.Proofs.Conjuncts
import Deduction.Proofs.Declaring

/-!
# Nested phrases and their definitions

What flattening makes of nested phrases, told apart from environments: terms without phrases, and a
list of definitions, one for each phrase, under ascending numbers. Inner phrases are defined before
the ones they are nested in, every temporary is used once, and only after its definition, and
substituting the definitions one after the other gives the phrases back.
-/

namespace Deduction

/-! ## Reading definitions back -/

/-- The term with a variable replaced by what stands for it. -/
def Term.replaceVars (f : Variable → Term) : Term → Term
  | var v => f v
  | t => t

/-- Reads a definition's temporary as the phrase of its elements, and all else as before. -/
def Definition.substitute (read : Term → Expr) (d : Definition) (t : Term) : Expr :=
  if t = .var d.temporary then .phrase (d.elements.map read) else read t

/-- Substitutes definitions one after the other, so that the elements of a definition are read with
the definitions before it. -/
def Definition.substituteAll (read : Term → Expr) (ds : List Definition) : Term → Expr :=
  ds.foldl substitute read

namespace Expr

mutual

/-- The expression with its variables replaced by what stands for them. -/
def replaceVars (f : Variable → Term) : Expr → Expr
  | term t => .term (t.replaceVars f)
  | phrase es => .phrase (replaceVarsAll f es)

/-- The expressions with their variables replaced by what stands for them. -/
def replaceVarsAll (f : Variable → Term) : List Expr → List Expr
  | [] => []
  | e :: es => e.replaceVars f :: replaceVarsAll f es

end

mutual

/-- The phrases in an expression from left to right, each one after the phrases nested in it. -/
def phrases : Expr → List Expr
  | term _ => []
  | phrase es => phrasesAll es ++ [phrase es]

/-- The phrases in the listed expressions, in the same order. -/
def phrasesAll : List Expr → List Expr
  | [] => []
  | e :: es => e.phrases ++ phrasesAll es

end

/-- The temporary that stands for a phrase under the given number. -/
def phraseVar (i : Nat) : Variable := .temporary phraseStem i

/-- Temporaries of phrases are told apart by their numbers. -/
theorem phraseVar_inj {i j : Nat} : phraseVar i = phraseVar j ↔ i = j := by
  simp [phraseVar]

end Expr

open Deduction.Expr

/-- Nothing that stands for a variable of the expressions is a temporary of a phrase under the
number `base` or a later one. -/
def Avoids (f : Variable → Term) (base : Nat) (es : List Expr) : Prop :=
  ∀ v ∈ varsAll es, ∀ i, base ≤ i → f v ≠ .var (phraseVar i)

namespace Avoids

variable {f : Variable → Term} {base : Nat} {e : Expr} {es : List Expr}

/-- The first of the listed expressions avoids what all of them avoid. -/
theorem head (hf : Avoids f base (e :: es)) : Avoids f base [e] := fun v hv =>
  hf v (List.mem_append_left _ (by simpa [varsAll] using hv))

/-- The expressions after the first one avoid what all of them avoid. -/
theorem tail (hf : Avoids f base (e :: es)) : Avoids f base es := fun v hv =>
  hf v (List.mem_append_right _ hv)

/-- The elements of a phrase avoid what the phrase avoids. -/
theorem elements (hf : Avoids f base [.phrase es]) : Avoids f base es := fun v hv =>
  hf v (List.mem_append_left _ hv)

/-- A term that avoids the temporaries is replaced by none of them. -/
theorem replaceVars_ne {t : Term} (hf : Avoids f base [.term t]) {i : Nat} (hi : base ≤ i) :
    t.replaceVars f ≠ .var (phraseVar i) := by
  cases t with
  | var v => exact hf v List.mem_cons_self i hi
  | keyword a => exact nofun
  | const c => exact nofun
  | hole => exact nofun

end Avoids

/-! ## Taking phrases apart -/

/-- The expressions become the terms, by the definitions, where `f` tells what variables become and
the temporaries of phrases carry numbers from the first up to the second one. Other variables may
use up numbers, too. -/
inductive Unnests (f : Variable → Term) :
    Nat → List Expr → List Term → List Definition → Nat → Prop
  | nil {n : Nat} : Unnests f n [] [] [] n
  | term {n m : Nat} (t : Term) (h : n ≤ m) : Unnests f n [.term t] [t.replaceVars f] [] m
  | phrase {n m : Nat} {es : List Expr} {ts : List Term} {ds : List Definition}
      (h : Unnests f n es ts ds m) :
      Unnests f n [.phrase es] [.var (phraseVar m)] (ds ++ [⟨phraseVar m, ts⟩]) (m + 1)
  | cons {n m m' : Nat} {e : Expr} {es : List Expr} {t : Term} {ts : List Term}
      {ds ds' : List Definition} (h : Unnests f n [e] [t] ds m) (h' : Unnests f m es ts ds' m') :
      Unnests f n (e :: es) (t :: ts) (ds ++ ds') m'

namespace Unnests

variable {f : Variable → Term} {base n m : Nat} {es : List Expr} {ts : List Term}
  {ds : List Definition}

/-- Unnesting uses up numbers in ascending order. -/
theorem le (h : Unnests f n es ts ds m) : n ≤ m := by
  induction h with
  | nil => exact Nat.le_refl _
  | term t h => exact h
  | phrase h ih => exact Nat.le_succ_of_le ih
  | cons h h' ih ih' => exact Nat.le_trans ih ih'

/-- There is one term for every expression. -/
theorem length_eq (h : Unnests f n es ts ds m) : ts.length = es.length := by
  induction h with
  | nil => rfl
  | term t h => rfl
  | phrase h ih => rfl
  | cons h h' ih ih' => rw [List.length_cons, List.length_cons, ih']

/-- Definitions are of temporaries of phrases, under numbers of the given range. -/
theorem exists_number (h : Unnests f n es ts ds m) {d : Definition} (hd : d ∈ ds) :
    ∃ i, d.temporary = phraseVar i ∧ n ≤ i ∧ i < m := by
  induction h with
  | nil => cases hd
  | term t h => cases hd
  | phrase h ih =>
    rcases List.mem_append.mp hd with hd | hd
    · obtain ⟨i, hi, hle, hlt⟩ := ih hd
      exact ⟨i, hi, hle, Nat.lt_succ_of_lt hlt⟩
    · obtain rfl := List.mem_singleton.mp hd
      exact ⟨_, rfl, h.le, Nat.lt_succ_self _⟩
  | cons h h' ih ih' =>
    rcases List.mem_append.mp hd with hd | hd
    · obtain ⟨i, hi, hle, hlt⟩ := ih hd
      exact ⟨i, hi, hle, Nat.lt_of_lt_of_le hlt h'.le⟩
    · obtain ⟨i, hi, hle, hlt⟩ := ih' hd
      exact ⟨i, hi, Nat.le_trans h.le hle, hlt⟩

/-- The temporaries are defined in the order of their numbers. -/
theorem ascending (h : Unnests f n es ts ds m) :
    ds.Pairwise fun d d' => d.temporary.number < d'.temporary.number := by
  have hnumber : ∀ i, (phraseVar i).number = i := fun i => rfl
  induction h with
  | nil => exact .nil
  | term t h => exact .nil
  | phrase h ih =>
    refine List.pairwise_append.mpr ⟨ih, List.pairwise_singleton _ _, fun d hd d' hd' => ?_⟩
    obtain rfl := List.mem_singleton.mp hd'
    obtain ⟨i, hi, _, hlt⟩ := h.exists_number hd
    rw [hi, hnumber, hnumber]
    exact hlt
  | cons h h' ih ih' =>
    refine List.pairwise_append.mpr ⟨ih, ih', fun d hd d' hd' => ?_⟩
    obtain ⟨i, hi, _, hlt⟩ := h.exists_number hd
    obtain ⟨j, hj, hle, _⟩ := h'.exists_number hd'
    rw [hi, hj, hnumber, hnumber]
    exact Nat.lt_of_lt_of_le hlt hle

/-- No temporary is defined twice. -/
theorem nodup (h : Unnests f n es ts ds m) : (ds.map Definition.temporary).Nodup := by
  refine List.pairwise_map.mpr (h.ascending.imp fun {d d'} hlt heq => ?_)
  rw [heq] at hlt
  exact Nat.lt_irrefl _ hlt

/-! ## Where temporaries are used -/

/-- The temporaries among the terms carry numbers of the given range. -/
theorem number_of_mem_terms (h : Unnests f n es ts ds m) (hf : Avoids f base es)
    {i : Nat} (hi : base ≤ i) (hmem : Term.var (phraseVar i) ∈ ts) : n ≤ i ∧ i < m := by
  induction h with
  | nil => cases hmem
  | term t h =>
    exact absurd (List.mem_singleton.mp hmem).symm (hf.replaceVars_ne hi)
  | phrase h ih =>
    obtain rfl : i = _ := phraseVar_inj.mp (Term.var.inj (List.mem_singleton.mp hmem))
    exact ⟨h.le, Nat.lt_succ_self _⟩
  | cons h h' ih ih' =>
    rcases List.mem_cons.mp hmem with heq | hmem
    · obtain ⟨hle, hlt⟩ := ih hf.head (List.mem_singleton.mpr heq)
      exact ⟨hle, Nat.lt_of_lt_of_le hlt h'.le⟩
    · obtain ⟨hle, hlt⟩ := ih' hf.tail hmem
      exact ⟨Nat.le_trans h.le hle, hlt⟩

/-- The temporaries among the elements of a definition carry smaller numbers than its own. -/
theorem number_of_mem_elements (h : Unnests f n es ts ds m) (hf : Avoids f base es)
    {d : Definition} (hd : d ∈ ds) {i : Nat} (hi : base ≤ i)
    (hmem : Term.var (phraseVar i) ∈ d.elements) : i < d.temporary.number := by
  induction h with
  | nil => cases hd
  | term t h => cases hd
  | phrase h ih =>
    rcases List.mem_append.mp hd with hd | hd
    · exact ih hf.elements hd
    · obtain rfl := List.mem_singleton.mp hd
      exact (h.number_of_mem_terms hf.elements hi hmem).2
  | cons h h' ih ih' =>
    rcases List.mem_append.mp hd with hd | hd
    · exact ih hf.head hd
    · exact ih' hf.tail hd

/-- Every temporary is used as often as it is defined. -/
theorem count_eq (h : Unnests f n es ts ds m) (hf : Avoids f base es) {i : Nat}
    (hi : base ≤ i) : (ds.flatMap Definition.elements ++ ts).count (.var (phraseVar i)) =
      (ds.map Definition.temporary).count (phraseVar i) := by
  induction h with
  | nil => rfl
  | term t h =>
    simpa [List.count_singleton] using hf.replaceVars_ne hi
  | phrase h ih =>
    have hcount := ih hf.elements
    simp only [List.count_append, List.flatMap_append, List.flatMap_singleton, List.map_append,
      List.map_cons, List.map_nil, List.count_singleton] at hcount ⊢
    simp [hcount]
  | cons h h' ih ih' =>
    have hcount := ih hf.head
    have hcount' := ih' hf.tail
    simp only [List.count_append, List.flatMap_append, List.map_append, List.count_cons,
      List.count_nil] at hcount hcount' ⊢
    omega

/-- A temporary is not used before it is defined, nor by its own definition, and once after it. -/
theorem used_once (h : Unnests f n es ts ds m) (hf : Avoids f n es)
    {before after : List Definition} {d : Definition} (hd : ds = before ++ d :: after) :
    Term.var d.temporary ∉ before.flatMap Definition.elements ++ d.elements ∧
      (after.flatMap Definition.elements ++ ts).count (.var d.temporary) = 1 := by
  obtain ⟨i, hi, hle, _⟩ := h.exists_number (hd ▸ List.mem_append_right _ List.mem_cons_self)
  have hnot : Term.var d.temporary ∉ before.flatMap Definition.elements ++ d.elements := by
    have hascending := h.ascending
    rw [hd] at hascending
    intro hmem
    rw [hi] at hmem
    rcases List.mem_append.mp hmem with hmem | hmem
    · obtain ⟨d', hd', hmem⟩ := List.mem_flatMap.mp hmem
      have hlt := (List.pairwise_append.mp hascending).2.2 d' hd' d List.mem_cons_self
      have hlt' := h.number_of_mem_elements hf (hd ▸ List.mem_append_left _ hd') hle hmem
      rw [hi] at hlt
      exact Nat.lt_asymm hlt hlt'
    · have hlt := h.number_of_mem_elements hf
        (hd ▸ List.mem_append_right _ List.mem_cons_self) hle hmem
      rw [hi] at hlt
      exact Nat.lt_irrefl _ hlt
  refine ⟨hnot, ?_⟩
  have hdefined : (ds.map Definition.temporary).count d.temporary = 1 :=
    List.count_eq_one_of_mem h.nodup (List.mem_map.mpr
      ⟨d, hd ▸ List.mem_append_right _ List.mem_cons_self, rfl⟩)
  have hcount := h.count_eq hf hle
  rw [← hi, hdefined, hd, List.flatMap_append, List.flatMap_cons, ← List.append_assoc,
    List.append_assoc, List.count_append, List.count_eq_zero_of_not_mem hnot,
    Nat.zero_add] at hcount
  exact hcount

end Unnests

/-! ## Putting phrases together again -/

namespace Definition

variable {read : Term → Expr} {t : Term} {ds : List Definition}

/-- Two lists of definitions are substituted one after the other. -/
theorem substituteAll_append (ds ds' : List Definition) :
    substituteAll read (ds ++ ds') = substituteAll (substituteAll read ds) ds' :=
  List.foldl_append

/-- Definitions have no say in what is read of a term that they do not define. -/
theorem substituteAll_of_ne (h : ∀ d ∈ ds, t ≠ .var d.temporary) :
    substituteAll read ds t = read t := by
  induction ds generalizing read with
  | nil => rfl
  | cons d ds ih =>
    rw [substituteAll, List.foldl_cons, ← substituteAll,
      ih fun d' hd' => h d' (List.mem_cons_of_mem d hd'), substitute,
      if_neg (h d List.mem_cons_self)]

/-- The last definition is read with all the ones before it. -/
theorem substituteAll_concat_self (ds : List Definition) (d : Definition) :
    substituteAll read (ds ++ [d]) (.var d.temporary) =
      .phrase (d.elements.map (substituteAll read ds)) := by
  rw [substituteAll_append]
  exact if_pos rfl

/-- Later definitions have no say in how the temporaries of earlier ones are read. -/
theorem map_substituteAll_append {ds' : List Definition}
    (h : ((ds ++ ds').map temporary).Nodup) :
    ds.map (fun d => substituteAll read (ds ++ ds') (.var d.temporary)) =
      ds.map fun d => substituteAll read ds (.var d.temporary) := by
  rw [List.map_append] at h
  refine List.map_congr_left fun d hd => ?_
  rw [substituteAll_append]
  refine substituteAll_of_ne fun d' hd' heq => ?_
  have hmem : d.temporary ∈ ds'.map temporary := by
    rw [Term.var.inj heq]
    exact List.mem_map_of_mem hd'
  exact List.disjoint_of_nodup_append h (List.mem_map_of_mem hd) hmem

end Definition

open Definition

/-- All terms but temporaries of phrases under the number `base` or a later one are read as
themselves. -/
def ReadsPlainly (base : Nat) (read : Term → Expr) : Prop :=
  ∀ t, (∀ i, base ≤ i → t ≠ .var (phraseVar i)) → read t = .term t

namespace Unnests

variable {f : Variable → Term} {base n m : Nat} {es : List Expr} {ts : List Term}
  {ds : List Definition} {read : Term → Expr}

/-- What is not a temporary of the given range is read as before. -/
theorem substituteAll_eq (h : Unnests f n es ts ds m) {t : Term}
    (ht : ∀ i, n ≤ i → t ≠ .var (phraseVar i)) : substituteAll read ds t = read t := by
  refine substituteAll_of_ne fun d hd => ?_
  obtain ⟨i, hi, hle, _⟩ := h.exists_number hd
  rw [hi]
  exact ht i hle

/-- Terms other than the defined temporaries are read as before. -/
theorem readsPlainly (h : Unnests f n es ts ds m) (hbase : base ≤ n)
    (hread : ReadsPlainly base read) : ReadsPlainly base (substituteAll read ds) := fun t ht =>
  (h.substituteAll_eq fun i hle => ht i (Nat.le_trans hbase hle)).trans (hread t ht)

/-- Substituting the definitions gives the expressions back. -/
theorem map_substituteAll (h : Unnests f n es ts ds m) (hf : Avoids f base es)
    (hbase : base ≤ n) (hread : ReadsPlainly base read) :
    ts.map (substituteAll read ds) = replaceVarsAll f es := by
  induction h generalizing read with
  | nil => rfl
  | term t h =>
    have ht := hread (t.replaceVars f) fun i hi => hf.replaceVars_ne hi
    exact congrArg (fun e => [e]) ht
  | phrase h ih =>
    rw [List.map_singleton, substituteAll_concat_self, ih hf.elements hbase hread]
    rfl
  | @cons n m m' e es t ts ds ds' h h' ih ih' =>
    -- the definitions of the rest are under later numbers than the first term
    have hfirst : substituteAll (substituteAll read ds) ds' t = substituteAll read ds t := by
      refine h'.substituteAll_eq fun i hle heq => ?_
      have hi : base ≤ i := Nat.le_trans hbase (Nat.le_trans h.le hle)
      have hlt := (h.number_of_mem_terms hf.head hi (List.mem_singleton.mpr heq.symm)).2
      exact absurd hlt (Nat.not_lt.mpr hle)
    have he := ih hf.head hbase hread
    rw [substituteAll_append, List.map_cons, hfirst,
      ih' hf.tail (Nat.le_trans hbase h.le) (h.readsPlainly hbase hread)]
    exact congrArg (· ++ replaceVarsAll f es) he

/-- The definitions are those of the phrases, each one after the phrases nested in it. -/
theorem map_temporary (h : Unnests f n es ts ds m) (hf : Avoids f base es)
    (hbase : base ≤ n) (hread : ReadsPlainly base read) :
    ds.map (fun d => substituteAll read ds (.var d.temporary)) =
      (phrasesAll es).map (replaceVars f) := by
  induction h generalizing read with
  | nil => rfl
  | term t h => rfl
  | phrase h ih =>
    rw [List.map_append, map_substituteAll_append (Unnests.phrase h).nodup,
      ih hf.elements hbase hread, List.map_singleton, substituteAll_concat_self,
      h.map_substituteAll hf.elements hbase hread]
    simp [phrasesAll, phrases, replaceVars]
  | cons h h' ih ih' =>
    rw [List.map_append, map_substituteAll_append (Unnests.cons h h').nodup,
      ih hf.head hbase hread, substituteAll_append,
      ih' hf.tail (Nat.le_trans hbase h.le) (h.readsPlainly hbase hread)]
    simp [phrasesAll]

end Unnests

end Deduction
