import Mathlib.Data.List.Forall2

/-!
# Lists of results

A computation over a list that may fail stops at its first failure.

* `Except.bind_eq_ok`, `Except.map_eq_ok`: what a result says about the steps to it.
* `Except.mapM_eq_ok_iff`: a list of results is in order if each of them is.
* `Except.mapM_congr`: only the results themselves count.
* `Except.error?_mapM`, `Except.mapM_eq_error_iff`: the failure of a list of results is the first one.
* `Except.FailsOnly P`: the failures of a computation; `FailsOnly.bind` and `FailsOnly.mapM` lead through it.
* `Except.Agree R`: two computations have related results or fail alike; `Agree.bind` and `Agree.mapM_same` lead through
  a computation.
-/

namespace RelatedRows.Except

variable {ε α β γ : Type}

theorem bind_eq_ok {x : Except ε α} {f : α → Except ε β} {b : β} (h : x >>= f = .ok b) :
    ∃ a, x = .ok a ∧ f a = .ok b := by
  cases x with
  | error e => cases h
  | ok a => exact ⟨a, rfl, h⟩

theorem map_eq_ok {x : Except ε α} {f : α → β} {b : β} (h : x.map f = .ok b) : ∃ a, x = .ok a ∧ f a = b := by
  cases x with
  | error e => cases h
  | ok a => cases h; exact ⟨a, rfl, rfl⟩

theorem map_eq_error_iff {x : Except ε α} {f : α → β} {e : ε} : x.map f = .error e ↔ x = .error e := by
  cases x <;> simp [Except.map]

theorem mapM_nil (f : α → Except ε β) : ([] : List α).mapM f = .ok [] := rfl

theorem mapM_cons_ok {f : α → Except ε β} {x : α} {xs : List α} {y : β} (h : f x = .ok y) :
    (x :: xs).mapM f = (xs.mapM f).map (y :: ·) := by
  rw [List.mapM_cons, h]
  rfl

theorem mapM_cons_error {f : α → Except ε β} {x : α} {xs : List α} {e : ε} (h : f x = .error e) :
    (x :: xs).mapM f = .error e := by
  rw [List.mapM_cons, h]
  rfl

theorem mapM_single_ok {f : α → Except ε β} {x : α} {y : β} (h : f x = .ok y) : [x].mapM f = .ok [y] := by
  rw [mapM_cons_ok h]
  rfl

theorem mapM_eq_ok_iff {f : α → Except ε β} {xs : List α} {ys : List β} :
    xs.mapM f = .ok ys ↔ List.Forall₂ (fun x y => f x = .ok y) xs ys := by
  induction xs generalizing ys with
  | nil =>
    rw [mapM_nil]
    constructor
    · rintro ⟨⟩
      exact .nil
    · rintro ⟨⟩
      rfl
  | cons x xs ih =>
    constructor
    · intro h
      cases hx : f x with
      | error e => rw [mapM_cons_error hx] at h; cases h
      | ok y =>
        rw [mapM_cons_ok hx] at h
        obtain ⟨ys', hys, rfl⟩ := map_eq_ok h
        exact .cons hx (ih.mp hys)
    · rintro (_ | ⟨hx, hxs⟩)
      rw [mapM_cons_ok hx, ih.mpr hxs]
      rfl

theorem exists_of_mem_mapM {f : α → Except ε β} {xs : List α} {ys : List β} {y : β} (h : xs.mapM f = .ok ys)
    (hy : y ∈ ys) : ∃ x ∈ xs, f x = .ok y := by
  have hall := mapM_eq_ok_iff.mp h
  induction hall with
  | nil => simp at hy
  | @cons x y' xs ys hx hxs ih =>
    rcases List.mem_cons.mp hy with rfl | hy
    · exact ⟨x, List.mem_cons_self, hx⟩
    · obtain ⟨x', hx', hy'⟩ := ih (mapM_eq_ok_iff.mpr hxs) hy
      exact ⟨x', List.mem_cons_of_mem _ hx', hy'⟩

theorem mapM_congr {f g : α → Except ε β} {xs : List α} (h : ∀ x ∈ xs, f x = g x) : xs.mapM f = xs.mapM g := by
  induction xs with
  | nil => rfl
  | cons x xs ih =>
    have hxs := ih fun y hy => h y (List.mem_cons_of_mem _ hy)
    rw [List.mapM_cons, List.mapM_cons, h x List.mem_cons_self, hxs]

theorem mapM_ok {f : α → Except ε β} {g : α → β} {xs : List α} (h : ∀ x ∈ xs, f x = .ok (g x)) :
    xs.mapM f = .ok (xs.map g) := by
  induction xs with
  | nil => rfl
  | cons x xs ih =>
    rw [mapM_cons_ok (h x List.mem_cons_self), ih fun y hy => h y (List.mem_cons_of_mem _ hy)]
    rfl

theorem forM_ok {f : α → Except ε PUnit} {xs : List α} (h : ∀ x ∈ xs, f x = .ok ⟨⟩) : xs.forM f = .ok ⟨⟩ := by
  induction xs with
  | nil => rfl
  | cons x xs ih =>
    show f x >>= (fun _ => xs.forM f) = .ok ⟨⟩
    rw [h x List.mem_cons_self]
    exact ih fun y hy => h y (List.mem_cons_of_mem _ hy)

theorem mapM_id_map (f : α → Except ε β) (xs : List α) : (xs.map f).mapM id = xs.mapM f := by
  induction xs with
  | nil => rfl
  | cons x xs ih => rw [List.map_cons, List.mapM_cons, List.mapM_cons, ih]; rfl

theorem mapM_map_right (f : α → Except ε β) (φ : β → γ) (xs : List α) :
    xs.mapM (fun x => (f x).map φ) = (xs.mapM f).map (List.map φ) := by
  induction xs with
  | nil => rfl
  | cons x xs ih =>
    rw [List.mapM_cons, List.mapM_cons, ih]
    cases f x with
    | error e => rfl
    | ok y => cases xs.mapM f <;> rfl

/-- Results that are kept together with what they are the results of. -/
theorem mapM_pair (f : α → Except ε β) (xs : List α) :
    (xs.map fun x => (f x).map (x, ·)).mapM id = (xs.mapM f).map xs.zip := by
  rw [mapM_id_map]
  induction xs with
  | nil => rfl
  | cons x xs ih =>
    rw [List.mapM_cons, List.mapM_cons, ih]
    cases f x with
    | error e => rfl
    | ok y => cases xs.mapM f <;> rfl

theorem length_of_mapM {f : α → Except ε β} {xs : List α} {ys : List β} (h : xs.mapM f = .ok ys) :
    ys.length = xs.length :=
  (mapM_eq_ok_iff.mp h).length_eq.symm

/-- Two lists of one length are related if they are so at every place. -/
theorem forall₂_of_getElem? {R : α → β → Prop} {xs : List α} {ys : List β} (hlen : xs.length = ys.length)
    (h : ∀ (i : Nat) (x : α) (y : β), xs[i]? = some x → ys[i]? = some y → R x y) : List.Forall₂ R xs ys := by
  rw [List.forall₂_iff_get]
  refine ⟨hlen, fun i hx hy => ?_⟩
  exact h i _ _ (List.getElem?_eq_getElem hx) (List.getElem?_eq_getElem hy)

theorem exists_of_forall₂_right {R : α → β → Prop} {as : List α} {bs : List β} (h : List.Forall₂ R as bs) {b : β}
    (hb : b ∈ bs) : ∃ a ∈ as, R a b := by
  obtain ⟨i, hi, rfl⟩ := List.getElem_of_mem hb
  have hi' : i < as.length := h.length_eq ▸ hi
  exact ⟨as[i], List.getElem_mem hi', h.get hi' hi⟩

theorem eq_map_of_mapM_id {xs : List (Except ε α)} {as : List α} (h : xs.mapM id = .ok as) : xs = as.map .ok := by
  have hall := List.forall₂_map_right_iff.mpr (mapM_eq_ok_iff.mp h)
  exact List.forall₂_eq_eq_eq ▸ hall

/-! ## The first failure -/

/-- The failure of a computation, if it fails. -/
def error? : Except ε α → Option ε
  | .ok _ => none
  | .error e => some e

theorem error?_eq_some {x : Except ε α} {e : ε} : error? x = some e ↔ x = .error e := by
  cases x <;> simp [error?]

theorem error?_map (f : α → β) (x : Except ε α) : error? (x.map f) = error? x := by
  cases x <;> rfl

/-- A computation over a list fails with the first failure among its elements. -/
theorem error?_mapM {f : α → Except ε β} {fault : α → Option ε} {xs : List α}
    (h : ∀ x ∈ xs, error? (f x) = fault x) : error? (xs.mapM f) = xs.findSome? fault := by
  induction xs with
  | nil => rfl
  | cons x xs ih =>
    have hrest := ih fun y hy => h y (List.mem_cons_of_mem _ hy)
    rw [List.findSome?_cons, ← h x List.mem_cons_self]
    cases hx : f x with
    | error e =>
      rw [mapM_cons_error hx]
      rfl
    | ok y =>
      rw [mapM_cons_ok hx, error?_map, hrest]
      rfl

theorem error?_mapM_id (xs : List (Except ε α)) : error? (xs.mapM id) = xs.findSome? error? :=
  error?_mapM fun _ _ => rfl

/-- A list of results fails with one of the failures in it. -/
theorem mem_of_mapM_id {xs : List (Except ε α)} {e : ε} (h : xs.mapM id = .error e) : .error e ∈ xs := by
  have hfirst := error?_mapM_id xs
  rw [h] at hfirst
  obtain ⟨x, hx, he⟩ := List.exists_of_findSome?_eq_some hfirst.symm
  rwa [error?_eq_some.mp he] at hx

/-- A computation over a list fails as its first failing element does, whatever follows. -/
theorem mapM_eq_error_iff {f : α → Except ε β} {xs : List α} {e : ε} :
    xs.mapM f = .error e ↔
      ∃ before x after, xs = before ++ x :: after ∧ (∀ b ∈ before, ∃ y, f b = .ok y) ∧ f x = .error e := by
  constructor
  · intro h
    induction xs with
    | nil => cases h
    | cons x xs ih =>
      cases hx : f x with
      | error e' =>
        rw [mapM_cons_error hx] at h
        cases h
        exact ⟨[], x, xs, rfl, fun b hb => absurd hb List.not_mem_nil, hx⟩
      | ok y =>
        rw [mapM_cons_ok hx] at h
        have hrest : xs.mapM f = .error e := by
          cases hxs : xs.mapM f with
          | error e' =>
            rw [hxs] at h
            exact h
          | ok ys =>
            rw [hxs] at h
            cases h
        obtain ⟨before, x', after, rfl, hbefore, hx'⟩ := ih hrest
        refine ⟨x :: before, x', after, rfl, fun b hb => ?_, hx'⟩
        rcases List.mem_cons.mp hb with rfl | hb
        · exact ⟨y, hx⟩
        · exact hbefore b hb
  · rintro ⟨before, x, after, rfl, hbefore, hx⟩
    induction before with
    | nil => exact mapM_cons_error hx
    | cons b before ih =>
      obtain ⟨y, hy⟩ := hbefore b List.mem_cons_self
      rw [List.cons_append, mapM_cons_ok hy, ih fun c hc => hbefore c (List.mem_cons_of_mem _ hc)]
      rfl

/-! ## What a computation fails with -/

/-- If a computation fails, then in a way that `P` allows. -/
def FailsOnly (P : ε → Prop) (x : Except ε α) : Prop :=
  ∀ e, x = .error e → P e

namespace FailsOnly

variable {P : ε → Prop}

theorem ok (a : α) : FailsOnly P (.ok a) :=
  fun _ h => nomatch h

theorem error {e : ε} (h : P e) : FailsOnly P (.error e : Except ε α) := by
  rintro _ ⟨⟩
  exact h

theorem map {x : Except ε α} (h : FailsOnly P x) (f : α → β) : FailsOnly P (x.map f) := by
  cases x with
  | error e => exact error (h e rfl)
  | ok a => exact ok (f a)

theorem bind {x : Except ε α} {f : α → Except ε β} (h : FailsOnly P x) (hf : ∀ a, x = .ok a → FailsOnly P (f a)) :
    FailsOnly P (x >>= f) := by
  cases x with
  | error e => exact error (h e rfl)
  | ok a => exact hf a rfl

theorem mapM {f : α → Except ε β} {xs : List α} (h : ∀ x ∈ xs, FailsOnly P (f x)) : FailsOnly P (xs.mapM f) := by
  intro e he
  rw [← mapM_id_map] at he
  obtain ⟨x, hx, hfx⟩ := List.mem_map.mp (mem_of_mapM_id he)
  exact h x hx e hfx

end FailsOnly

/-! ## Two computations -/

/-- Two results agree if they are related, or the same failure. -/
inductive Agree (R : α → β → Prop) : Except ε α → Except ε β → Prop
  | ok {a : α} {b : β} (h : R a b) : Agree R (.ok a) (.ok b)
  | error (e : ε) : Agree R (.error e) (.error e)

namespace Agree

variable {δ ι : Type} {R : α → β → Prop} {S : γ → δ → Prop}

theorem refl {R : α → α → Prop} (hR : ∀ a, R a a) (x : Except ε α) : Agree R x x := by
  cases x with
  | error e => exact .error e
  | ok a => exact .ok (hR a)

theorem trans {R : α → α → Prop} (hR : ∀ a b c, R a b → R b c → R a c) {x y z : Except ε α} (h : Agree R x y)
    (h' : Agree R y z) : Agree R x z := by
  cases h with
  | error e => exact h'
  | ok h =>
    cases h' with
    | ok h' => exact .ok (hR _ _ _ h h')

theorem bind {x : Except ε α} {y : Except ε β} {f : α → Except ε γ} {g : β → Except ε δ} (h : Agree R x y)
    (hf : ∀ a b, R a b → Agree S (f a) (g b)) : Agree S (x >>= f) (y >>= g) := by
  cases h with
  | ok h => exact hf _ _ h
  | error e => exact .error e

theorem mono {x : Except ε α} {y : Except ε β} {R' : α → β → Prop} (h : Agree R x y) (hR : ∀ a b, R a b → R' a b) :
    Agree R' x y := by
  cases h with
  | ok h => exact .ok (hR _ _ h)
  | error e => exact .error e

theorem map {x : Except ε α} {y : Except ε β} {f : α → γ} {g : β → δ} (h : Agree R x y)
    (hf : ∀ a b, R a b → S (f a) (g b)) : Agree S (x.map f) (y.map g) := by
  cases h with
  | ok h => exact .ok (hf _ _ h)
  | error e => exact .error e

theorem map_right {x : Except ε α} {y : Except ε γ} {f : γ → β} (h : Agree (fun a c => R a (f c)) x y) :
    Agree R x (y.map f) := by
  cases h with
  | ok h => exact .ok h
  | error e => exact .error e

/-- What agrees also is what the computations yield. -/
theorem with_eq {x : Except ε α} {y : Except ε β} (h : Agree R x y) :
    Agree (fun a b => x = .ok a ∧ y = .ok b ∧ R a b) x y := by
  cases h with
  | ok h => exact .ok ⟨rfl, rfl, h⟩
  | error e => exact .error e

theorem mapM {f : ι → Except ε α} {g : γ → Except ε β} {xs : List ι} {ys : List γ}
    (h : List.Forall₂ (fun x y => Agree R (f x) (g y)) xs ys) :
    Agree (List.Forall₂ R) (xs.mapM f) (ys.mapM g) := by
  induction h with
  | nil => exact .ok .nil
  | cons hx _ ih =>
    rw [List.mapM_cons, List.mapM_cons]
    refine bind hx fun a b hab => bind ih fun as bs habs => ?_
    exact .ok (.cons hab habs)

/-- Two computations over one list, element by element; what they yield is kept together with the elements. -/
theorem mapM_same {Q : ι → α → β → Prop} {f : ι → Except ε α} {g : ι → Except ε β} {xs : List ι}
    (h : ∀ x ∈ xs, Agree (Q x) (f x) (g x)) :
    Agree (fun as bs => ∃ cs : List (ι × α × β), xs = cs.map (·.1) ∧ as = cs.map (·.2.1) ∧ bs = cs.map (·.2.2) ∧
      ∀ c ∈ cs, Q c.1 c.2.1 c.2.2) (xs.mapM f) (xs.mapM g) := by
  induction xs with
  | nil => exact .ok ⟨[], rfl, rfl, rfl, by simp⟩
  | cons x xs ih =>
    have hrest := ih fun y hy => h y (List.mem_cons_of_mem _ hy)
    have hx := h x List.mem_cons_self
    rw [List.mapM_cons, List.mapM_cons]
    refine bind hx fun a b hab => bind hrest ?_
    rintro as bs ⟨cs, rfl, rfl, rfl, hcs⟩
    refine .ok ⟨(x, a, b) :: cs, rfl, rfl, rfl, fun c hc => ?_⟩
    rcases List.mem_cons.mp hc with rfl | hc
    · exact hab
    · exact hcs c hc

end Agree

end RelatedRows.Except
